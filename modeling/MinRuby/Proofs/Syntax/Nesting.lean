import MinRuby.Proofs.Syntax.Parsing
import MinRuby.Proofs.Syntax.Spelling

/-!
# The nesting of phrases

A phrase reads a character at least before one that is nested in it, so what it reads depends on nested phrases at
shorter texts only. As many levels as a text has characters, and one more, are therefore enough, and `read` is a fixed
point of the grammar: each phrase is read by its rule, the phrases nested in it by `read` again.

* `phrase_eq_read` — more levels than needed make no difference.
* `read_eq` — the grammar as an equation.
-/

namespace MinRuby.Syntax

open MinRuby.Syntax.Parser

namespace Parser

variable {α β : Type}

theorem readsPrefix_bind {p : Parser α} {f : α → Parser β} (hp : ReadsPrefix p) (hf : ∀ a, ReadsPrefix (f a)) :
    ReadsPrefix (p >>= f) :=
  hp.after fun a => (hf a).mono fun _ _ _ _ => trivial

theorem readsPrefix_many {p : Parser α} (hp : ReadsPrefix p) : ReadsPrefix (many p) :=
  Reads.many hp trivial fun _ _ _ _ _ _ => trivial

theorem readsPrefix_sepBy1 {p : Parser α} {s : Parser β} (hp : ReadsPrefix p) (hs : ReadsPrefix s) :
    ReadsPrefix (sepBy1 p s) :=
  readsPrefix_bind hp fun _ => readsPrefix_bind (readsPrefix_many (readsPrefix_bind hs fun _ => hp)) fun _ =>
    Reads.pure trivial

theorem Spells.readsPrefix {p : Parser α} {pre : List String} {words : α → List String} {ok : α → Prop}
    (h : Spells pre p words ok) : ReadsPrefix p := h.mono fun _ _ _ => trivial

/-- A parser that takes a character at least. -/
abbrev Takes (p : Parser α) : Prop := Reads p fun w _ => w ≠ []

theorem Takes.bind {p : Parser α} {f : α → Parser β} (hp : Takes p) (hf : ∀ a, ReadsPrefix (f a)) : Takes (p >>= f) :=
  Reads.bind hp fun _ a hw => (hf a).mono fun _ _ _ => List.append_ne_nil_of_left_ne_nil hw _

theorem Takes.after {p : Parser α} {f : α → Parser β} (hp : ReadsPrefix p) (hf : ∀ a, Takes (f a)) : Takes (p >>= f) :=
  Reads.after hp fun a => (hf a).mono fun _ _ hw w => List.append_ne_nil_of_right_ne_nil w hw

theorem takes_adjacent {text : List Char} (h : text ≠ []) : Takes (adjacent text) := by
  intro c a c' hc
  unfold adjacent at hc
  split at hc
  · next hprefix =>
    obtain ⟨tail, htail⟩ := List.isPrefixOf_iff_prefix.mp hprefix
    obtain ⟨-, rfl⟩ := Reply.done.inj hc
    refine ⟨text, ?_, h⟩
    rw [Cursor.rest_skip, ← htail, List.drop_left]
  · cases hc

theorem takes_symbol {o : String} (h : o.toList ≠ []) : Takes (symbol o) :=
  .after reads_blanks fun _ => takes_adjacent h

theorem takes_keyword {word : String} (h : word.toList ≠ []) : Takes (keyword word) := by
  refine .after reads_blanks fun _ => ?_
  intro c a c' hc
  simp only at hc
  split at hc
  · next hprefix =>
    obtain ⟨tail, htail⟩ := List.isPrefixOf_iff_prefix.mp (Bool.and_eq_true_iff.mp (Bool.and_eq_true_iff.mp hprefix).1).1
    obtain ⟨-, rfl⟩ := Reply.done.inj hc
    refine ⟨word.toList, ?_, h⟩
    rw [Cursor.rest_skip, ← htail, List.drop_left]
  · cases hc

theorem takes_identifier : Takes identifier :=
  reads_identifier.mono fun w x ⟨⟨first, more, mark, hx, _⟩, gap, hw⟩ => by
    rw [hw, hx]
    simp

theorem Takes.orElse {p q : Parser α} (hp : Takes p) (hq : Takes q) : Takes (p <|> q) := Reads.orElse hp hq

/-- The parsers do the same at all texts that are shorter than the bound. -/
structure AgreeBelow (n : Nat) (p q : Parser α) : Prop where
  reads : ReadsPrefix q
  eq : ∀ c, c.rest.length < n → p c = q c

namespace AgreeBelow

variable {n : Nat} {p p' q q' : Parser α} {f f' : α → Parser β} {s : Parser β}

theorem refl (h : ReadsPrefix p) : AgreeBelow n p p := ⟨h, fun _ _ => rfl⟩

theorem pred (h : AgreeBelow (n + 1) p p') : AgreeBelow n p p' := ⟨h.reads, fun c hc => h.eq c (Nat.lt_succ_of_lt hc)⟩

theorem pure (a : α) : AgreeBelow n (Pure.pure a) (Pure.pure a) := refl (Reads.pure trivial)

theorem bind (hp : AgreeBelow n p p') (hf : ∀ a, AgreeBelow n (f a) (f' a)) : AgreeBelow n (p >>= f) (p' >>= f') where
  reads := readsPrefix_bind hp.reads fun a => (hf a).reads
  eq c hc := by
    show Parser.bind p f c = Parser.bind p' f' c
    rw [Parser.bind, Parser.bind, hp.eq c hc]
    cases hdone : p' c with
    | done a c' =>
      obtain ⟨w, hw, -⟩ := hp.reads c a c' hdone
      refine (hf a).eq c' (Nat.lt_of_le_of_lt ?_ hc)
      rw [hw, List.length_append]
      exact Nat.le_add_left _ _
    | fail => rfl
    | giveUp r => rfl

theorem skip (hp : ReadsPrefix p) (hf : ∀ a, AgreeBelow n (f a) (f' a)) : AgreeBelow n (p >>= f) (p >>= f') :=
  (refl hp).bind hf

/-- What stands behind a token is shorter. -/
theorem token (ht : Takes p) (hf : ∀ a, AgreeBelow n (f a) (f' a)) : AgreeBelow (n + 1) (p >>= f) (p >>= f') where
  reads := readsPrefix_bind (ht.mono fun _ _ _ => trivial) fun a => (hf a).reads
  eq c hc := by
    show Parser.bind p f c = Parser.bind p f' c
    rw [Parser.bind, Parser.bind]
    cases hdone : p c with
    | done a c' =>
      obtain ⟨w, hw, hne⟩ := ht c a c' hdone
      refine (hf a).eq c' ?_
      rw [hw, List.length_append] at hc
      have hpos := List.length_pos_iff.mpr hne
      omega
    | fail => rfl
    | giveUp r => rfl

/-- What stands behind a token that may be missing is shorter if the token is there. -/
theorem optionalToken {f f' : Option α → Parser β} (ht : Takes p) (hnone : AgreeBelow (n + 1) (f none) (f' none))
    (hsome : ∀ a, AgreeBelow n (f (some a)) (f' (some a))) :
    AgreeBelow (n + 1) (Parser.optional p >>= f) (Parser.optional p >>= f') where
  reads := readsPrefix_bind (reads_optional (ht.mono fun _ _ _ => trivial)) fun a? => by
    cases a? with
    | none => exact hnone.reads
    | some a => exact (hsome a).reads
  eq c hc := by
    cases hdone : p c with
    | done a c' =>
      have htoken := (token (f := fun a => f (some a)) ht hsome).eq c hc
      rw [bind_of_done hdone, bind_of_done hdone] at htoken
      rwa [bind_of_done (optional_of_done hdone), bind_of_done (optional_of_done hdone)]
    | fail =>
      rw [bind_of_done (optional_of_fail hdone), bind_of_done (optional_of_fail hdone)]
      exact hnone.eq c hc
    | giveUp r =>
      have hoptional : Parser.optional p c = .giveUp r := by rw [Parser.optional, hdone]
      rw [bind_of_giveUp hoptional, bind_of_giveUp hoptional]

theorem orElse (hp : AgreeBelow n p p') (hq : AgreeBelow n q q') : AgreeBelow n (p <|> q) (p' <|> q') where
  reads := Reads.orElse hp.reads hq.reads
  eq c hc := by
    show Parser.orElse p (fun _ => q) c = Parser.orElse p' (fun _ => q') c
    rw [Parser.orElse, Parser.orElse, hp.eq c hc, hq.eq c hc]

theorem optional (hp : AgreeBelow n p p') : AgreeBelow n (Parser.optional p) (Parser.optional p') where
  reads := reads_optional hp.reads
  eq c hc := by rw [Parser.optional, Parser.optional, hp.eq c hc]

theorem upTo (hp : AgreeBelow n p p') (bound : Nat) :
    ∀ c, c.rest.length < n → Parser.upTo p bound c = Parser.upTo p' bound c := by
  induction bound with
  | zero => exact fun _ _ => rfl
  | succ bound ih =>
    intro c hc
    simp only [Parser.upTo, hp.eq c hc]
    cases hdone : p' c with
    | done a c' =>
      obtain ⟨w, hw, -⟩ := hp.reads c a c' hdone
      have hshorter : c'.rest.length < n := by
        rw [hw, List.length_append] at hc
        omega
      simp only [ih c' hshorter]
    | fail => rfl
    | giveUp r => rfl

theorem many (hp : AgreeBelow n p p') : AgreeBelow n (Parser.many p) (Parser.many p') :=
  ⟨readsPrefix_many hp.reads, fun c hc => upTo hp c.rest.length c hc⟩

theorem many1 (hp : AgreeBelow n p p') : AgreeBelow n (Parser.many1 p) (Parser.many1 p') :=
  hp.bind fun _ => hp.many.bind fun _ => pure _

theorem sepBy1 (hp : AgreeBelow n p p') (hs : ReadsPrefix s) :
    AgreeBelow n (Parser.sepBy1 p s) (Parser.sepBy1 p' s) :=
  hp.bind fun _ => (skip hs fun _ => hp).many.bind fun _ => pure _

end AgreeBelow

end Parser

/-! ## The grammar -/

section

variable {n : Nat} {nested nested' : Phrase → Parser Term} (hn : ∀ p, AgreeBelow n (nested p) (nested' p))
include hn

theorem agree_expressions : AgreeBelow n (expressions nested) (expressions nested') :=
  (hn .expression).sepBy1 reads_comma

theorem agree_callWithParentheses : AgreeBelow (n + 1) (callWithParentheses nested) (callWithParentheses nested') :=
  .token takes_identifier fun _ => .skip (reads_adjacent _) fun _ => .skip reads_newlines fun _ =>
    (agree_expressions hn).optional.bind fun _ => .skip reads_newlines fun _ => .skip (reads_symbol _) fun _ => .pure _

theorem agree_arrayLiteral : AgreeBelow (n + 1) (arrayLiteral nested) (arrayLiteral nested') :=
  .token (takes_symbol (by decide)) fun _ => .skip reads_newlines fun _ =>
    (((agree_expressions hn).bind fun _ => .skip (reads_optional (reads_symbol _)) fun _ => .pure _).optional).bind
      fun _ => .skip reads_newlines fun _ => .skip (reads_symbol _) fun _ => .pure _

theorem agree_keyAndValue : AgreeBelow n (keyAndValue nested) (keyAndValue nested') :=
  (hn .expression).bind fun _ => .skip (reads_symbol _) fun _ => .skip reads_newlines fun _ =>
    (hn .expression).bind fun _ => .pure _

theorem agree_hashLiteral : AgreeBelow (n + 1) (hashLiteral nested) (hashLiteral nested') :=
  .token (takes_symbol (by decide)) fun _ => .skip reads_newlines fun _ =>
    ((((agree_keyAndValue hn).sepBy1 reads_comma).bind fun _ =>
      .skip (reads_optional (reads_symbol _)) fun _ => .pure _).optional).bind
      fun _ => .skip reads_newlines fun _ => .skip (reads_symbol _) fun _ => .pure _

theorem agree_parenthesized : AgreeBelow (n + 1) (parenthesized nested) (parenthesized nested') :=
  .token (takes_symbol (by decide)) fun _ => .skip reads_newlines fun _ => (hn .statement).bind fun _ =>
    .skip reads_newlines fun _ => .skip (reads_symbol _) fun _ => .pure _

theorem agree_elseBranch : AgreeBelow (n + 1) (elseBranch nested) (elseBranch nested') :=
  .token (takes_keyword (by decide)) fun _ => hn .block

theorem agree_clause {word : String} (h : word.toList ≠ []) :
    AgreeBelow (n + 1) (clause nested word) (clause nested' word) :=
  .token (takes_keyword h) fun _ => (hn .expression).bind fun _ => .skip (reads_bodyStart _) fun _ =>
    (hn .block).bind fun _ => .pure _

theorem agree_ifExpression : AgreeBelow (n + 1) (ifExpression nested) (ifExpression nested') :=
  (agree_clause hn (by decide)).bind fun _ => (agree_clause hn (by decide)).many.bind fun _ =>
    (agree_elseBranch hn).optional.bind fun _ => .skip (reads_keyword _) fun _ => .pure _

theorem agree_unlessExpression : AgreeBelow (n + 1) (unlessExpression nested) (unlessExpression nested') :=
  (agree_clause hn (by decide)).bind fun _ => (agree_elseBranch hn).optional.bind fun _ =>
    .skip (reads_keyword _) fun _ => .pure _

theorem agree_whileExpression : AgreeBelow (n + 1) (whileExpression nested) (whileExpression nested') :=
  .token (takes_keyword (by decide)) fun _ => (hn .expression).bind fun _ => .skip (reads_bodyStart _) fun _ =>
    (hn .block).bind fun _ => .skip (reads_keyword _) fun _ => .pure _

theorem agree_whenClause : AgreeBelow (n + 1) (whenClause nested) (whenClause nested') :=
  .token (takes_keyword (by decide)) fun _ => (agree_expressions hn).bind fun _ => .skip (reads_bodyStart _) fun _ =>
    (hn .block).bind fun _ => .pure _

theorem agree_caseExpression : AgreeBelow (n + 1) (caseExpression nested) (caseExpression nested') :=
  .token (takes_keyword (by decide)) fun _ => (hn .expression).bind fun _ => .skip reads_separators fun _ =>
    (agree_whenClause hn).pred.many1.bind fun _ => (agree_elseBranch hn).pred.optional.bind fun _ =>
      .skip (reads_keyword _) fun _ => .pure _

theorem agree_definition : AgreeBelow (n + 1) (definition nested) (definition nested') :=
  .token (takes_keyword (by decide)) fun _ => .skip spells_identifier.readsPrefix fun _ =>
    .skip spells_parameters.readsPrefix fun _ => (hn .block).bind fun _ => .skip (reads_keyword _) fun _ => .pure _

theorem agree_beginExpression : AgreeBelow (n + 1) (beginExpression nested) (beginExpression nested') :=
  .token (takes_keyword (by decide)) fun _ => (hn .block).bind fun _ => .skip (reads_keyword _) fun _ => .pure _

theorem agree_primary : AgreeBelow (n + 1) (primary nested) (primary nested') :=
  (.refl (spells_literal reads_numeral).readsPrefix : AgreeBelow _ _ _).orElse <|
  (.refl (spells_literal reads_stringLiteral).readsPrefix : AgreeBelow _ _ _).orElse <|
  (.refl (spells_literalWord _ _).readsPrefix : AgreeBelow _ _ _).orElse <|
  (.refl (spells_literalWord _ _).readsPrefix : AgreeBelow _ _ _).orElse <|
  (.refl (spells_literalWord _ _).readsPrefix : AgreeBelow _ _ _).orElse <|
  (agree_arrayLiteral hn).orElse <| (agree_hashLiteral hn).orElse <| (agree_parenthesized hn).orElse <|
  (agree_ifExpression hn).orElse <| (agree_unlessExpression hn).orElse <| (agree_whileExpression hn).orElse <|
  (agree_caseExpression hn).orElse <| (agree_definition hn).orElse <| (agree_beginExpression hn).orElse <|
  (agree_callWithParentheses hn).orElse <|
  .refl (readsPrefix_bind spells_identifier.readsPrefix fun _ => Reads.pure trivial)

theorem agree_indexed : AgreeBelow (n + 1) (indexed nested) (indexed nested') :=
  (agree_primary hn).bind fun _ => (AgreeBelow.many <| .token (takes_adjacent (by decide)) fun _ =>
    .skip reads_newlines fun _ => (hn .expression).bind fun _ => .skip reads_newlines fun _ =>
      .skip (reads_symbol _) fun _ => .pure _).bind fun _ => .pure _

theorem agree_negation : AgreeBelow (n + 1) (negation nested) (negation nested') :=
  .token (takes_symbol (by decide)) fun _ => .skip reads_notAhead fun _ => (hn .negated).bind fun _ => .pure _

theorem agree_power {base base' : Parser Term} (hb : AgreeBelow (n + 1) base base') :
    AgreeBelow (n + 1) (power nested base) (power nested' base') :=
  hb.bind fun _ => (AgreeBelow.optional <| .token (takes_symbol (by decide)) fun _ =>
    .skip reads_newlines fun _ => hn .signed).bind fun _ => .pure _

theorem agree_minus : AgreeBelow (n + 1) (minus nested) (minus nested') :=
  .token (takes_symbol (by decide)) fun _ => (hn .signed).bind fun _ => .pure _

theorem agree_negated : AgreeBelow (n + 1) (negated nested) (negated nested') :=
  (agree_negation hn).orElse (agree_indexed hn)

theorem agree_signed : AgreeBelow (n + 1) (signed nested) (signed nested') :=
  (agree_minus hn).orElse (agree_power hn (agree_negated hn))

omit hn in
theorem agree_leftChain {operator : Parser Connective} {operand operand' : Parser Term} (hr : ReadsPrefix operator)
    (ho : AgreeBelow n operand operand') (bound : Nat) (left : Term) :
    AgreeBelow n (leftChain operator operand bound left) (leftChain operator operand' bound left) := by
  induction bound generalizing left with
  | zero => exact .pure left
  | succ bound ih =>
    rw [leftChain_succ, leftChain_succ]
    refine .skip (reads_optional hr) fun op? => ?_
    cases op? with
    | none => exact .pure left
    | some op => exact ho.bind fun right => ih (.binary op left right)

omit hn in
theorem agree_chain {operand operand' : Parser Term} (ho : AgreeBelow n operand operand') (ls : List Level)
    {first first' : Parser Term} (hf : AgreeBelow n first first') :
    AgreeBelow n (chain operand ls first) (chain operand' ls first') := by
  induction ls generalizing first first' with
  | nil => exact hf
  | cons level tighter ih =>
    refine (ih hf).bind fun left => ⟨fun c => ?_, fun c hc => ?_⟩
    · exact (agree_leftChain (reads_operator level) (ih ho) c.rest.length left).reads c
    · exact (agree_leftChain (reads_operator level) (ih ho) c.rest.length left).eq c hc

theorem agree_expressionFrom {first first' : Parser Term} (hf : AgreeBelow (n + 1) first first') :
    AgreeBelow (n + 1) (expressionFrom nested first) (expressionFrom nested' first') :=
  (agree_chain (agree_signed hn) levels hf).bind fun _ =>
    .optionalToken (.bind (takes_symbol (by decide)) fun _ => reads_newlines) (.pure _) fun _ =>
      (hn .expression).bind fun _ => .skip (reads_symbol _) fun _ => .skip reads_newlines fun _ =>
        (hn .expression).bind fun _ => .pure _

omit hn in
theorem readsPrefix_ofOption (a? : Option Term) : ReadsPrefix (ofOption a?) := by
  cases a? with
  | none => exact Reads.fail
  | some a => exact Reads.pure trivial

theorem agree_assignment (target : Term) :
    AgreeBelow (n + 1) (assignment nested target) (assignment nested' target) :=
  .token (takes_symbol (by decide)) fun _ => .skip reads_notAhead fun _ => .skip reads_newlines fun _ =>
    (hn .value).bind fun _ => .refl (readsPrefix_ofOption _)

omit hn in
theorem takes_compoundOperator : Takes compoundOperator :=
  .orElse (.bind (takes_symbol (by decide)) fun _ => Reads.pure trivial) <|
  .orElse (.bind (takes_symbol (by decide)) fun _ => Reads.pure trivial) <|
  .orElse (.bind (takes_symbol (by decide)) fun _ => Reads.pure trivial) <|
  .orElse (.bind (takes_symbol (by decide)) fun _ => Reads.pure trivial) <|
  .orElse (.bind (takes_symbol (by decide)) fun _ => Reads.pure trivial) <|
  .orElse (.bind (takes_symbol (by decide)) fun _ => Reads.pure trivial) Reads.fail

theorem agree_compoundAssignment (target : Term) :
    AgreeBelow (n + 1) (compoundAssignment nested target) (compoundAssignment nested' target) :=
  .token takes_compoundOperator fun _ => .skip reads_newlines fun _ =>
    (hn .value).bind fun _ => .refl (readsPrefix_ofOption _)

theorem agree_commandCall : AgreeBelow (n + 1) (commandCall nested) (commandCall nested') :=
  .token takes_identifier fun _ => .skip reads_notAhead fun _ => .skip reads_notAhead fun _ =>
    .skip reads_notAhead fun _ => (AgreeBelow.sepBy1 (.skip reads_notAhead fun _ => hn .value) reads_comma).bind
      fun _ => .pure _

theorem agree_value : AgreeBelow (n + 1) (value nested) (value nested') := by
  have hassigned (target : Term) := (agree_assignment hn target).orElse (agree_compoundAssignment hn target)
  have hfrom (target : Term) : AgreeBelow (n + 1) (expressionFrom nested (power nested (Parser.pure target)))
      (expressionFrom nested' (power nested' (Parser.pure target))) := agree_expressionFrom hn (agree_power hn (.pure target))
  have hsign := agree_expressionFrom hn ((agree_minus hn).orElse (agree_power hn (agree_negation hn)))
  constructor
  · intro c t c'' h
    have behind {c' : Cursor} {target : Term} (hindexed : indexed nested' c = .done target c') {p : Parser Term}
        (hp : ReadsPrefix p) (h : p c' = .done t c'') : ∃ w, c.rest = w ++ c''.rest ∧ True := by
      obtain ⟨w, hw, -⟩ := (agree_indexed hn).reads c _ _ hindexed
      obtain ⟨w', hw', -⟩ := hp c' _ _ h
      exact ⟨w ++ w', by rw [hw, hw', List.append_assoc], trivial⟩
    unfold value at h
    split at h
    · next target c' hindexed =>
      simp only at h
      split at h
      · next hdone =>
        obtain ⟨rfl, rfl⟩ := Reply.done.inj h
        exact behind hindexed (hassigned target).reads hdone
      · cases h
      · split at h
        · next hdone =>
          obtain ⟨rfl, rfl⟩ := Reply.done.inj h
          exact (agree_commandCall hn).reads c _ _ hdone
        · cases h
        · exact behind hindexed (hfrom target).reads h
    · exact hsign.reads c t c'' h
    · cases h
  · intro c hc
    unfold value
    rw [(agree_indexed hn).eq c hc]
    cases hindexed : indexed nested' c with
    | done target c' =>
      have hc' : c'.rest.length < n + 1 := by
        obtain ⟨w, hw, -⟩ := (agree_indexed hn).reads c _ _ hindexed
        rw [hw, List.length_append] at hc
        omega
      simp only [(hassigned target).eq c' hc', (agree_commandCall hn).eq c hc, (hfrom target).eq c' hc']
    | fail => exact hsign.eq c hc
    | giveUp r => rfl

theorem agree_modifier : AgreeBelow (n + 1) (modifier nested) (modifier nested') :=
  .token (.orElse (.bind (takes_keyword (by decide)) fun _ => Reads.pure trivial) <|
      .orElse (.bind (takes_keyword (by decide)) fun _ => Reads.pure trivial) <|
      .bind (takes_keyword (by decide)) fun _ => Reads.pure trivial) fun _ =>
    (hn .expression).bind fun _ => .pure _

theorem agree_statement : AgreeBelow (n + 1) (statement nested) (statement nested') :=
  (agree_value hn).bind fun _ => (agree_modifier hn).many.bind fun _ => .pure _

theorem agree_block : AgreeBelow (n + 1) (block nested) (block nested') :=
  .skip reads_separators fun _ => ((agree_statement hn).sepBy1 reads_separators1).optional.bind fun _ =>
    .skip reads_separators fun _ => .pure _

theorem agree_rule : ∀ p, AgreeBelow (n + 1) (rule nested p) (rule nested' p)
  | .expression => agree_expressionFrom hn (agree_signed hn)
  | .negated => agree_negated hn
  | .signed => agree_signed hn
  | .value => agree_value hn
  | .statement => agree_statement hn
  | .block => agree_block hn

end

/-- Reads a phrase, with as many levels as its text may need. -/
def read (p : Phrase) : Parser Term := fun c => phrase (c.rest.length + 1) p c

theorem agree_phrase (n : Nat) : ∀ {m : Nat}, n ≤ m → ∀ p, AgreeBelow n (phrase n p) (phrase m p) := by
  induction n with
  | zero => exact fun _ p => ⟨(spells_phrase _ p).readsPrefix, fun c hc => absurd hc (Nat.not_lt_zero _)⟩
  | succ n ih =>
    intro m hm p
    obtain ⟨m, rfl⟩ : ∃ k, m = k + 1 := ⟨m - 1, by omega⟩
    exact agree_rule (ih (Nat.le_of_succ_le_succ hm)) p

/-- More levels than a text has characters make no difference. -/
theorem phrase_eq_read {n : Nat} {c : Cursor} (h : c.rest.length < n) (p : Phrase) : phrase n p c = read p c :=
  ((agree_phrase (c.rest.length + 1) h p).eq c (Nat.lt_succ_self _)).symm

theorem reads_read (p : Phrase) : ReadsPrefix (read p) := fun c => (spells_phrase _ p).readsPrefix c

/-- A phrase is read by its rule, and so are those that are nested in it. -/
theorem read_eq (p : Phrase) : read p = rule read p := by
  funext c
  have hnested (p : Phrase) : AgreeBelow c.rest.length (phrase c.rest.length p) (read p) :=
    ⟨reads_read p, fun _ hc => phrase_eq_read hc p⟩
  exact (agree_rule hnested p).eq c (Nat.lt_succ_self _)

end MinRuby.Syntax
