import MinRuby.Proofs.Syntax.Reading
import MinRuby.Syntax.Grammar

/-!
# Names in terms and in texts

`Term.words` lists the names of a term as they are written, and `Spelled` finds names in a text one after
the other. The grammar is gone through once: what a phrase has read spells the names of the term it gives,
in their order, and every hash literal of the term has as many values as keys.

* `spells_phrase` — this, for every phrase of the grammar.
-/

namespace MinRuby.Syntax

/-! ## Words of terms -/

mutual

/-- The names in a term, in the order in which they are written. -/
def Term.words : Term → List String
  | .lit _ => []
  | .name x => [x]
  | .call function args => function :: wordsAll args
  | .array items => wordsAll items
  | .hash items => wordsAll items
  | .index container position => container.words ++ position.words
  | .negation operand => operand.words
  | .minus operand => operand.words
  | .binary _ left right => left.words ++ right.words
  | .choice test yes no => test.words ++ yes.words ++ no.words
  | .choiceUnless test no yes => test.words ++ no.words ++ yes.words
  | .assignName x value => x :: value.words
  | .assignIndex container position value => container.words ++ position.words ++ value.words
  | .updateName x _ value => x :: value.words
  | .updateIndex container position _ value => container.words ++ position.words ++ value.words
  | .loop test body => test.words ++ body.words
  | .caseOf subject clauses => subject.words ++ clauses.words
  | .definition name params body => name :: params ++ body.words
  | .beginEnd body => body.words
  | .block statements => wordsAll statements
  | .modified statement _ test => statement.words ++ test.words
termination_by structural t => t

/-- The names in a sequence of terms. -/
def wordsAll : List Term → List String
  | [] => []
  | t :: rest => t.words ++ wordsAll rest
termination_by structural l => l

/-- The names in the clauses of a `case`. -/
def Clauses.words : Clauses → List String
  | .otherwise body => body.words
  | .clause values body rest => wordsAll values ++ body.words ++ rest.words
termination_by structural c => c

end

mutual

/-- Every hash literal in the term has as many values as keys. -/
def Term.Paired : Term → Prop
  | .lit _ => True
  | .name _ => True
  | .call _ args => PairedAll args
  | .array items => PairedAll items
  | .hash items => items.length % 2 = 0 ∧ PairedAll items
  | .index container position => container.Paired ∧ position.Paired
  | .negation operand => operand.Paired
  | .minus operand => operand.Paired
  | .binary _ left right => left.Paired ∧ right.Paired
  | .choice test yes no => test.Paired ∧ yes.Paired ∧ no.Paired
  | .choiceUnless test no yes => test.Paired ∧ no.Paired ∧ yes.Paired
  | .assignName _ value => value.Paired
  | .assignIndex container position value => container.Paired ∧ position.Paired ∧ value.Paired
  | .updateName _ _ value => value.Paired
  | .updateIndex container position _ value => container.Paired ∧ position.Paired ∧ value.Paired
  | .loop test body => test.Paired ∧ body.Paired
  | .caseOf subject clauses => subject.Paired ∧ clauses.Paired
  | .definition _ _ body => body.Paired
  | .beginEnd body => body.Paired
  | .block statements => PairedAll statements
  | .modified statement _ test => statement.Paired ∧ test.Paired
termination_by structural t => t

/-- Every hash literal in the terms has as many values as keys. -/
def PairedAll : List Term → Prop
  | [] => True
  | t :: rest => t.Paired ∧ PairedAll rest
termination_by structural l => l

/-- Every hash literal in the clauses has as many values as keys. -/
def Clauses.Paired : Clauses → Prop
  | .otherwise body => body.Paired
  | .clause values body rest => PairedAll values ∧ body.Paired ∧ rest.Paired
termination_by structural c => c

end

theorem wordsAll_eq_flatMap (ts : List Term) : wordsAll ts = ts.flatMap Term.words := by
  induction ts with
  | nil => rfl
  | cons t rest ih => rw [wordsAll, ih, List.flatMap_cons]

theorem pairedAll_iff {ts : List Term} : PairedAll ts ↔ ∀ t ∈ ts, t.Paired := by
  induction ts with
  | nil => simp [PairedAll]
  | cons t rest ih => simp [PairedAll, ih]

theorem wordsAll_flatten (tss : List (List Term)) : wordsAll tss.flatten = tss.flatMap wordsAll := by
  induction tss with
  | nil => rfl
  | cons ts rest ih => simp only [wordsAll_eq_flatMap] at ih ⊢; simp [ih, wordsAll_eq_flatMap]

/-- Lists of even length put together are a list of even length. -/
theorem pairedAll_flatten {tss : List (List Term)} (h : ∀ ts ∈ tss, ts.length % 2 = 0 ∧ PairedAll ts) :
    tss.flatten.length % 2 = 0 ∧ PairedAll tss.flatten := by
  refine ⟨?_, pairedAll_iff.mpr fun t ht => ?_⟩
  · induction tss with
    | nil => rfl
    | cons ts rest ih =>
      have hts := (h ts List.mem_cons_self).1
      have hrest := ih fun t ht => h t (List.mem_cons_of_mem ts ht)
      rw [List.flatten_cons, List.length_append]
      omega
  · obtain ⟨ts, hts, ht⟩ := List.mem_flatten.mp ht
    exact pairedAll_iff.mp (h ts hts).2 t ht

@[simp] theorem Term.words_nothing : Term.nothing.words = [] := rfl

@[simp] theorem Term.paired_nothing : Term.nothing.Paired := trivial

/-- The names of a conditional, clause by clause. -/
theorem Term.words_choices (test body : Term) (clauses : List (Term × Term)) (otherwise : Term) :
    (Term.choices test body clauses otherwise).words =
      test.words ++ body.words ++ clauses.flatMap (fun c => c.1.words ++ c.2.words) ++ otherwise.words := by
  rw [Term.choices, Term.words, List.append_assoc _ _ otherwise.words]
  congr 1
  induction clauses with
  | nil => rfl
  | cons c rest ih => simp [Term.words, ih]

theorem Term.paired_choices {test body : Term} {clauses : List (Term × Term)} {otherwise : Term}
    (ht : test.Paired) (hb : body.Paired) (hc : ∀ c ∈ clauses, c.1.Paired ∧ c.2.Paired)
    (ho : otherwise.Paired) : (Term.choices test body clauses otherwise).Paired := by
  refine ⟨ht, hb, ?_⟩
  induction clauses with
  | nil => exact ho
  | cons c rest ih =>
    obtain ⟨h₁, h₂⟩ := hc c List.mem_cons_self
    exact ⟨h₁, h₂, ih fun d hd => hc d (List.mem_cons_of_mem c hd)⟩

theorem Term.words_foldl_index (base : Term) (ps : List Term) :
    (ps.foldl Term.index base).words = base.words ++ ps.flatMap Term.words := by
  induction ps generalizing base with
  | nil => simp
  | cons p rest ih => simp [ih, Term.words]

theorem Term.paired_foldl_index {base : Term} {ps : List Term} (hb : base.Paired)
    (hp : ∀ p ∈ ps, p.Paired) : (ps.foldl Term.index base).Paired := by
  induction ps generalizing base with
  | nil => exact hb
  | cons p rest ih =>
    exact ih ⟨hb, hp p List.mem_cons_self⟩ fun t ht => hp t (List.mem_cons_of_mem p ht)

theorem Term.words_foldl_modified (base : Term) (ms : List (Modifier × Term)) :
    (ms.foldl (fun s m => .modified s m.1 m.2) base).words =
      base.words ++ ms.flatMap fun m => m.2.words := by
  induction ms generalizing base with
  | nil => simp
  | cons m rest ih => simp [ih, Term.words]

theorem Term.paired_foldl_modified {base : Term} {ms : List (Modifier × Term)} (hb : base.Paired)
    (hm : ∀ m ∈ ms, m.2.Paired) : (ms.foldl (fun s m => .modified s m.1 m.2) base).Paired := by
  induction ms generalizing base with
  | nil => exact hb
  | cons m rest ih =>
    exact ih ⟨hb, hm m List.mem_cons_self⟩ fun t ht => hm t (List.mem_cons_of_mem m ht)

theorem Clauses.words_ofList (clauses : List (List Term × Term)) (otherwise : Term) :
    (Clauses.ofList clauses otherwise).words =
      clauses.flatMap (fun c => wordsAll c.1 ++ c.2.words) ++ otherwise.words := by
  induction clauses with
  | nil => rfl
  | cons c rest ih =>
    have h : Clauses.ofList (c :: rest) otherwise = .clause c.1 c.2 (Clauses.ofList rest otherwise) := rfl
    simp [h, Clauses.words, ih]

theorem Clauses.paired_ofList {clauses : List (List Term × Term)} {otherwise : Term}
    (hc : ∀ c ∈ clauses, PairedAll c.1 ∧ c.2.Paired) (ho : otherwise.Paired) :
    (Clauses.ofList clauses otherwise).Paired := by
  induction clauses with
  | nil => exact ho
  | cons c rest ih =>
    obtain ⟨h₁, h₂⟩ := hc c List.mem_cons_self
    exact ⟨h₁, h₂, ih fun d hd => hc d (List.mem_cons_of_mem c hd)⟩

/-! ## Words of texts -/

/-- The text holds the names, each an identifier, one after the other. -/
inductive Spelled : List String → List Char → Prop where
  | nil (w : List Char) : Spelled [] w
  | cons (gap : List Char) {x : String} {xs : List String} {w : List Char} (hx : IsIdentifier x)
      (h : Spelled xs w) : Spelled (x :: xs) (gap ++ x.toList ++ w)

namespace Spelled

theorem behind {xs : List String} {w : List Char} (h : Spelled xs w) (w₀ : List Char) :
    Spelled xs (w₀ ++ w) := by
  cases h with
  | nil => exact .nil _
  | cons gap hx h => simpa using Spelled.cons (w₀ ++ gap) hx h

theorem append {xs ys : List String} {w w' : List Char} (h : Spelled xs w) (h' : Spelled ys w') :
    Spelled (xs ++ ys) (w ++ w') := by
  induction h with
  | nil w => exact h'.behind w
  | cons gap hx _ ih => simpa using Spelled.cons gap hx ih

theorem isIdentifier {xs : List String} {w : List Char} (h : Spelled xs w) :
    ∀ x ∈ xs, IsIdentifier x := by
  induction h with
  | nil => simp
  | cons gap hx _ ih => simpa using ⟨hx, ih⟩

end Spelled

/-! ## Words of what is read -/

namespace Parser

variable {α β : Type} {p q : Parser α} {pre : List String} {words : α → List String} {ok : α → Prop}

/-- Where the names `pre` have been read before, the names of what `p` gives have been read after it. -/
def Spells (pre : List String) (p : Parser α) (words : α → List String) (ok : α → Prop) : Prop :=
  Reads p fun w a => (∀ w₀, Spelled pre w₀ → Spelled (words a) (w₀ ++ w)) ∧ ok a

namespace Spells

theorem pure {a : α} (hw : words a = pre) (hok : ok a) : Spells pre (Pure.pure a) words ok :=
  Reads.pure ⟨fun w₀ h => by simpa [hw] using h, hok⟩

theorem fail : Spells pre (Parser.fail : Parser α) words ok := Reads.fail

/-- A token holds no name that counts. -/
theorem token {s : Parser β} {f : β → Parser α} (hs : ReadsPrefix s)
    (hf : ∀ b, Spells pre (f b) words ok) : Spells pre (s >>= f) words ok :=
  Reads.bind hs fun w b _ => (hf b).mono fun w' a ⟨h, hok⟩ =>
    ⟨fun w₀ h₀ => by simpa using h (w₀ ++ w) (by simpa using h₀.append (.nil w)), hok⟩

theorem bind {wordsB : β → List String} {okB : β → Prop} {s : Parser β} {f : β → Parser α}
    (hs : Spells [] s wordsB okB) (hf : ∀ b, okB b → Spells (pre ++ wordsB b) (f b) words ok) :
    Spells pre (s >>= f) words ok :=
  Reads.bind hs fun w b ⟨hb, hokb⟩ => (hf b hokb).mono fun w' a ⟨h, hok⟩ =>
    ⟨fun w₀ h₀ => by
      simpa using h (w₀ ++ w) (h₀.append (by simpa using hb [] (.nil []))), hok⟩

/-- What follows a parser that has read the names `pre` too. -/
theorem follow {wordsB : β → List String} {okB : β → Prop} {s : Parser β} {f : β → Parser α}
    (hs : Spells pre s wordsB okB) (hf : ∀ b, okB b → Spells (wordsB b) (f b) words ok) :
    Spells pre (s >>= f) words ok :=
  Reads.bind hs fun w b ⟨hb, hokb⟩ => (hf b hokb).mono fun w' a ⟨h, hok⟩ =>
    ⟨fun w₀ h₀ => by simpa using h (w₀ ++ w) (hb w₀ h₀), hok⟩

/-- The same at one place of the text. -/
theorem next {wordsB : β → List String} {okB : β → Prop} {s : Parser β} {b : β} {a : α}
    {c c' c'' : Cursor} (hs : Spells pre s wordsB okB) (hb : s c = .done b c')
    (hp : okB b → Spells (wordsB b) p words ok) (ha : p c' = .done a c'') :
    ∃ w, c.rest = w ++ c''.rest ∧ (∀ w₀, Spelled pre w₀ → Spelled (words a) (w₀ ++ w)) ∧ ok a := by
  obtain ⟨w, hw, hspell, hokb⟩ := hs c b c' hb
  obtain ⟨w', hw', hspell', hok⟩ := hp hokb c' a c'' ha
  exact ⟨w ++ w', by rw [hw, hw', List.append_assoc],
    fun w₀ h₀ => by simpa using hspell' (w₀ ++ w) (hspell w₀ h₀), hok⟩

theorem orElse (hp : Spells pre p words ok) (hq : Spells pre q words ok) :
    Spells pre (p <|> q) words ok :=
  Reads.orElse hp hq

theorem map {wordsB : β → List String} {okB : β → Prop} {s : Parser β} {f : β → α}
    (hs : Spells [] s wordsB okB) (hw : ∀ b, words (f b) = wordsB b) (hok : ∀ b, okB b → ok (f b)) :
    Spells [] (f <$> s) words ok :=
  bind hs fun b hb => pure (by simp [hw]) (hok b hb)

theorem optional (hp : Spells [] p words ok) :
    Spells [] (Parser.optional p) (fun a? => (a?.map words).getD []) fun a? => ∀ a ∈ a?, ok a :=
  Reads.optional hp ⟨fun w₀ _ => .nil _, by simp⟩ fun w a ⟨h, hok⟩ => ⟨h, by simpa using hok⟩

theorem many (hp : Spells [] p words ok) :
    Spells [] (Parser.many p) (fun as => as.flatMap words) fun as => ∀ a ∈ as, ok a := by
  refine Reads.many hp ⟨fun w₀ _ => .nil _, by simp⟩ ?_
  rintro w a w' as ⟨h, hok⟩ ⟨h', hok'⟩
  refine ⟨fun w₀ _ => ?_, by simpa using ⟨hok, hok'⟩⟩
  have hw : Spelled (words a) w := by simpa using h [] (.nil [])
  have hw' : Spelled (as.flatMap words) w' := by simpa using h' [] (.nil [])
  simpa using (hw.append hw').behind w₀

theorem many1 (hp : Spells [] p words ok) :
    Spells [] (Parser.many1 p) (fun as => as.flatMap words) fun as => ∀ a ∈ as, ok a :=
  bind hp fun _ ha => bind (many hp) fun _ has => pure (by simp) (by simpa using ⟨ha, has⟩)

theorem sepBy1 {s : Parser β} (hp : Spells [] p words ok) (hs : ReadsPrefix s) :
    Spells [] (Parser.sepBy1 p s) (fun as => as.flatMap words) fun as => ∀ a ∈ as, ok a :=
  bind hp fun _ ha => bind (many (token hs fun _ => hp)) fun _ has =>
    pure (by simp) (by simpa using ⟨ha, has⟩)

theorem ofOption {a? : Option α} (h : ∀ a, a? = some a → words a = pre ∧ ok a) :
    Spells pre (Parser.ofOption a?) words ok := by
  cases a? with
  | none => exact fail
  | some a => exact pure (h a rfl).1 (h a rfl).2

end Spells

theorem spells_identifier : Spells [] identifier (fun x => [x]) IsIdentifier := by
  refine reads_identifier.mono fun w x ⟨hx, gap, hw⟩ => ⟨fun w₀ _ => ?_, hx⟩
  simpa [hw] using Spelled.cons (w₀ ++ gap) hx (.nil [])

/-- A token without names gives a literal. -/
theorem spells_literal {s : Parser Literal} (hs : ReadsPrefix s) :
    Spells [] (Term.lit <$> s) Term.words Term.Paired :=
  Spells.token hs fun _ => Spells.pure rfl trivial

/-! ## The grammar -/

theorem reads_operator (level : Level) : ReadsPrefix level.operator := by
  induction level with
  | nil => exact Reads.fail
  | cons o rest ih =>
    refine Reads.orElse (Reads.after ?_ fun _ => reads_newlines.after fun _ => Reads.pure fun _ _ => trivial) ih
    unfold spelling
    split
    · exact (reads_symbol _).after fun _ => Reads.notAhead.mono fun _ _ _ _ => trivial
    · exact reads_symbol _

end Parser

open MinRuby.Syntax.Parser

/-- One round of a chain. -/
theorem leftChain_succ (operator : Parser Connective) (operand : Parser Term) (bound : Nat) (left : Term) :
    leftChain operator operand (bound + 1) left = (Parser.optional operator >>= fun op? =>
      match op? with
      | none => Pure.pure left
      | some op => operand >>= fun right => leftChain operator operand bound (.binary op left right)) := by
  funext c
  change _ = Parser.bind (Parser.optional operator) _ c
  simp only [leftChain, Parser.bind, Parser.optional]
  cases operator c with
  | done op c' =>
    change _ = Parser.bind operand _ c'
    simp only [Parser.bind]
    cases operand c' <;> rfl
  | fail => rfl
  | giveUp r => rfl

/-- What the parsers of the nested phrases read spells the terms they give. -/
abbrev NestedSpell (nested : Phrase → Parser Term) : Prop :=
  ∀ p, Spells [] (nested p) Term.words Term.Paired

section

variable {nested : Phrase → Parser Term} (hn : NestedSpell nested)

include hn

theorem spells_expressions : Spells [] (expressions nested) wordsAll PairedAll :=
  (Spells.sepBy1 (hn .expression) reads_comma).mono fun w ts ⟨h, hok⟩ =>
    ⟨by simpa [wordsAll_eq_flatMap] using h, pairedAll_iff.mpr hok⟩

omit hn in
/-- The optional list in a call or a literal. -/
theorem spells_optionalTerms {p : Parser (List Term)} {ok : List Term → Prop} (hnil : ok [])
    (hp : Spells [] p wordsAll ok) :
    Spells [] (Parser.optional p) (fun ts? => wordsAll (ts?.getD [])) fun ts? => ok (ts?.getD []) := by
  refine (Spells.optional hp).mono fun w ts? ⟨h, hok⟩ => ⟨?_, ?_⟩
  · cases ts? <;> simpa [wordsAll] using h
  · cases ts? with
    | none => exact hnil
    | some ts => exact hok ts rfl

theorem spells_callWithParentheses : Spells [] (callWithParentheses nested) Term.words Term.Paired :=
  spells_identifier.bind fun f _ => .token (reads_adjacent _) fun _ => .token reads_newlines fun _ =>
    (spells_optionalTerms trivial (spells_expressions hn)).bind fun args hargs =>
      .token reads_newlines fun _ => .token (reads_symbol _) fun _ =>
        .pure (by simp [Term.words]) (by simpa [Term.Paired] using hargs)

theorem spells_arrayLiteral : Spells [] (arrayLiteral nested) Term.words Term.Paired :=
  .token (reads_symbol _) fun _ => .token reads_newlines fun _ =>
    (spells_optionalTerms trivial ((spells_expressions hn).bind fun items hitems =>
      .token (reads_optional (reads_symbol _)) fun _ => .pure (by simp) hitems)).bind fun items hitems =>
        .token reads_newlines fun _ => .token (reads_symbol _) fun _ =>
          .pure (by simp [Term.words]) (by simpa [Term.Paired] using hitems)

theorem spells_keyAndValue :
    Spells [] (keyAndValue nested) wordsAll fun ts => ts.length % 2 = 0 ∧ PairedAll ts :=
  (hn .expression).bind fun k hk => .token (reads_symbol _) fun _ => .token reads_newlines fun _ =>
    (hn .expression).bind fun v hv => .pure (by simp [wordsAll]) (by simp [PairedAll, hk, hv])

theorem spells_hashLiteral : Spells [] (hashLiteral nested) Term.words Term.Paired := by
  refine .token (reads_symbol _) fun _ => .token reads_newlines fun _ => ?_
  have entries : Spells [] (do
      let pairs ← sepBy1 (keyAndValue nested) comma
      let _ ← Parser.optional (symbol ",")
      return pairs.flatten) wordsAll fun ts => ts.length % 2 = 0 ∧ PairedAll ts :=
    (Spells.sepBy1 (spells_keyAndValue hn) reads_comma).bind fun pairs hpairs =>
      .token (reads_optional (reads_symbol _)) fun _ =>
        .pure (by simp [wordsAll_flatten]) (pairedAll_flatten hpairs)
  exact (spells_optionalTerms ⟨rfl, trivial⟩ entries).bind fun items hitems =>
    .token reads_newlines fun _ => .token (reads_symbol _) fun _ =>
      .pure (by simp [Term.words]) hitems

theorem spells_parenthesized : Spells [] (parenthesized nested) Term.words Term.Paired :=
  .token (reads_symbol _) fun _ => .token reads_newlines fun _ => (hn .statement).bind fun t ht =>
    .token reads_newlines fun _ => .token (reads_symbol _) fun _ => .pure (by simp) ht

theorem spells_elseBranch : Spells [] (elseBranch nested) Term.words Term.Paired :=
  .token (reads_keyword _) fun _ => hn .block

/-- An else branch that may be missing. -/
theorem spells_optionalElse : Spells [] (Parser.optional (elseBranch nested))
    (fun t? => (t?.getD .nothing).words) fun t? => (t?.getD .nothing).Paired := by
  refine (Spells.optional (spells_elseBranch hn)).mono fun w t? ⟨h, hok⟩ => ⟨?_, ?_⟩
  · cases t? <;> simpa using h
  · cases t? with
    | none => exact trivial
    | some t => exact hok t rfl

theorem spells_clause (word : String) : Spells [] (clause nested word)
    (fun c => c.1.words ++ c.2.words) fun c => c.1.Paired ∧ c.2.Paired :=
  .token (reads_keyword _) fun _ => (hn .expression).bind fun t ht => .token (reads_bodyStart _) fun _ =>
    (hn .block).bind fun b hb => .pure (by simp) ⟨ht, hb⟩

theorem spells_ifExpression : Spells [] (ifExpression nested) Term.words Term.Paired :=
  (spells_clause hn _).bind fun c hc => (Spells.many (spells_clause hn _)).bind fun cs hcs =>
    (spells_optionalElse hn).bind fun o ho => .token (reads_keyword _) fun _ =>
      .pure (by simp [Term.words_choices]) (Term.paired_choices hc.1 hc.2 hcs ho)

theorem spells_unlessExpression : Spells [] (unlessExpression nested) Term.words Term.Paired :=
  (spells_clause hn _).bind fun c hc => (spells_optionalElse hn).bind fun o ho =>
    .token (reads_keyword _) fun _ => .pure (by simp [Term.words]) ⟨hc.1, hc.2, ho⟩

theorem spells_whileExpression : Spells [] (whileExpression nested) Term.words Term.Paired :=
  .token (reads_keyword _) fun _ => (hn .expression).bind fun t ht => .token (reads_bodyStart _) fun _ =>
    (hn .block).bind fun b hb => .token (reads_keyword _) fun _ => .pure (by simp [Term.words]) ⟨ht, hb⟩

theorem spells_whenClause : Spells [] (whenClause nested)
    (fun c => wordsAll c.1 ++ c.2.words) fun c => PairedAll c.1 ∧ c.2.Paired :=
  .token (reads_keyword _) fun _ => (spells_expressions hn).bind fun vs hvs =>
    .token (reads_bodyStart _) fun _ => (hn .block).bind fun b hb => .pure (by simp) ⟨hvs, hb⟩

theorem spells_caseExpression : Spells [] (caseExpression nested) Term.words Term.Paired :=
  .token (reads_keyword _) fun _ => (hn .expression).bind fun s hs => .token reads_separators fun _ =>
    (Spells.many1 (spells_whenClause hn)).bind fun cs hcs => (spells_optionalElse hn).bind fun o ho =>
      .token (reads_keyword _) fun _ =>
        .pure (by simp [Term.words, Clauses.words_ofList]) ⟨hs, Clauses.paired_ofList hcs ho⟩

omit hn in
theorem spells_parameters : Spells [] parameters (fun xs => xs) fun xs => ∀ x ∈ xs, IsIdentifier x := by
  have names {s : Parser Unit} (hs : ReadsPrefix s) : Spells [] (Parser.optional (sepBy1 identifier s))
      (fun xs? => xs?.getD []) fun xs? => ∀ x ∈ xs?.getD [], IsIdentifier x := by
    refine (Spells.optional (Spells.sepBy1 spells_identifier hs)).mono fun w xs? ⟨h, hok⟩ => ⟨?_, ?_⟩
    · cases xs? <;> simpa using h
    · cases xs? with
      | none => simp
      | some xs => exact hok xs rfl
  refine Spells.orElse ?_ ?_
  · exact .token (reads_symbol _) fun _ => .token reads_newlines fun _ => (names reads_comma).bind fun xs hxs =>
      .token reads_newlines fun _ => .token (reads_symbol _) fun _ => .pure (by simp) hxs
  · exact (names (reads_symbol _)).bind fun xs hxs => .pure (by simp) hxs

theorem spells_definition : Spells [] (definition nested) Term.words Term.Paired :=
  .token (reads_keyword _) fun _ => spells_identifier.bind fun f _ => spells_parameters.bind fun ps _ =>
    (hn .block).bind fun b hb => .token (reads_keyword _) fun _ => .pure (by simp [Term.words]) hb

theorem spells_beginExpression : Spells [] (beginExpression nested) Term.words Term.Paired :=
  .token (reads_keyword _) fun _ => (hn .block).bind fun b hb =>
    .token (reads_keyword _) fun _ => .pure (by simp [Term.words]) hb

omit hn in
theorem spells_literalWord (word : String) (value : Literal) :
    Spells [] (literalWord word value) Term.words Term.Paired :=
  .token (reads_keyword _) fun _ => .pure rfl trivial

theorem spells_primary : Spells [] (primary nested) Term.words Term.Paired :=
  (spells_literal reads_numeral).orElse <| (spells_literal reads_stringLiteral).orElse <|
  (spells_literalWord _ _).orElse <| (spells_literalWord _ _).orElse <| (spells_literalWord _ _).orElse <|
  (spells_arrayLiteral hn).orElse <| (spells_hashLiteral hn).orElse <| (spells_parenthesized hn).orElse <|
  (spells_ifExpression hn).orElse <| (spells_unlessExpression hn).orElse <|
  (spells_whileExpression hn).orElse <| (spells_caseExpression hn).orElse <|
  (spells_definition hn).orElse <| (spells_beginExpression hn).orElse <|
  (spells_callWithParentheses hn).orElse <|
  spells_identifier.map (fun _ => rfl) fun _ _ => trivial

theorem spells_indexing : Spells [] (indexing nested) Term.words Term.Paired :=
  .token (reads_adjacent _) fun _ => .token reads_newlines fun _ => (hn .expression).bind fun t ht =>
    .token reads_newlines fun _ => .token (reads_symbol _) fun _ => .pure (by simp) ht

theorem spells_indexed : Spells [] (indexed nested) Term.words Term.Paired :=
  (spells_primary hn).bind fun base hbase => (Spells.many (spells_indexing hn)).bind fun ps hps =>
    .pure (by simp [Term.words_foldl_index]) (Term.paired_foldl_index hbase hps)

theorem spells_negation : Spells [] (negation nested) Term.words Term.Paired :=
  .token (reads_symbol _) fun _ => .token reads_notAhead fun _ => (hn .negated).bind fun t ht =>
    .pure (by simp [Term.words]) ht

theorem spells_negated : Spells [] (negated nested) Term.words Term.Paired :=
  (spells_negation hn).orElse (spells_indexed hn)

/-- An operand that spells `pre` before it, with the exponent that may follow. -/
theorem spells_power {pre : List String} {base : Parser Term}
    (hb : Spells pre base Term.words Term.Paired) :
    Spells pre (power nested base) Term.words Term.Paired := by
  refine hb.follow fun b hb => (Spells.optional (.token (reads_symbol _) fun _ =>
    .token reads_newlines fun _ => hn .signed)).bind fun e? he => ?_
  cases e? with
  | none => exact .pure (by simp) hb
  | some e => exact .pure (by simp [Term.words]) ⟨hb, he e rfl⟩

theorem spells_minus : Spells [] (minus nested) Term.words Term.Paired :=
  .token (reads_symbol _) fun _ => (hn .signed).bind fun t ht => .pure (by simp [Term.words]) ht

theorem spells_signed : Spells [] (signed nested) Term.words Term.Paired :=
  (spells_minus hn).orElse (spells_power hn (spells_negated hn))

/-! ## Expressions and statements -/

omit hn in
theorem spells_leftChain {operator : Parser Connective} {operand : Parser Term}
    (ho : ReadsPrefix operator) (hp : Spells [] operand Term.words Term.Paired) (bound : Nat)
    {left : Term} (hl : left.Paired) :
    Spells left.words (leftChain operator operand bound left) Term.words Term.Paired := by
  induction bound generalizing left with
  | zero => exact .pure rfl hl
  | succ bound ih =>
    rw [leftChain_succ]
    refine .token (reads_optional ho) fun op? => ?_
    cases op? with
    | none => exact .pure rfl hl
    | some op =>
      exact hp.bind fun right hr => by
        simpa [Term.words] using @ih (.binary op left right) ⟨hl, hr⟩

omit hn in
theorem spells_chain {operand : Parser Term} (hp : Spells [] operand Term.words Term.Paired)
    (ls : List Level) {pre : List String} {first : Parser Term}
    (hf : Spells pre first Term.words Term.Paired) :
    Spells pre (chain operand ls first) Term.words Term.Paired := by
  induction ls generalizing pre first with
  | nil => exact hf
  | cons level tighter ih =>
    refine (ih hf).follow fun left hl => ?_
    exact fun c => spells_leftChain (reads_operator level) (ih hp) c.rest.length hl c

theorem spells_expressionFrom {pre : List String} {first : Parser Term}
    (hf : Spells pre first Term.words Term.Paired) :
    Spells pre (expressionFrom nested first) Term.words Term.Paired := by
  refine (spells_chain (spells_signed hn) levels hf).follow fun test ht => ?_
  refine .token (reads_optional ((reads_symbol _).after fun _ => reads_newlines.mono fun _ _ _ _ => trivial))
    fun mark? => ?_
  cases mark? with
  | none => exact .pure rfl ht
  | some _ =>
    exact (hn .expression).bind fun yes hy => .token (reads_symbol _) fun _ => .token reads_newlines fun _ =>
      (hn .expression).bind fun no hno => .pure (by simp [Term.words]) ⟨ht, hy, hno⟩

theorem spells_expression : Spells [] (expression nested) Term.words Term.Paired :=
  spells_expressionFrom hn (spells_signed hn)

theorem spells_assignment {target : Term} (ht : target.Paired) :
    Spells target.words (assignment nested target) Term.words Term.Paired := by
  refine .token (reads_symbol _) fun _ => .token reads_notAhead fun _ => .token reads_newlines fun _ =>
    (hn .value).bind fun v hv => .ofOption fun t h => ?_
  cases target <;> simp only [Term.assign?, Option.some.injEq, reduceCtorEq] at h <;> subst h
  · exact ⟨by simp [Term.words], hv⟩
  · exact ⟨by simp [Term.words], ht.1, ht.2, hv⟩

omit hn in
theorem reads_compoundOperator : ReadsPrefix compoundOperator := by
  unfold compoundOperator
  induction compoundOperators with
  | nil => exact Reads.fail
  | cons o rest ih => exact Reads.orElse ((reads_symbol _).after fun _ => Reads.pure fun _ => trivial) ih

theorem spells_compoundAssignment {target : Term} (ht : target.Paired) :
    Spells target.words (compoundAssignment nested target) Term.words Term.Paired := by
  refine .token reads_compoundOperator fun op => .token reads_newlines fun _ =>
    (hn .value).bind fun v hv => .ofOption fun t h => ?_
  cases target <;> simp only [Term.update?, Option.some.injEq, reduceCtorEq] at h <;> subst h
  · exact ⟨by simp [Term.words], hv⟩
  · exact ⟨by simp [Term.words], ht.1, ht.2, hv⟩

theorem spells_commandArgument : Spells [] (commandArgument nested) Term.words Term.Paired :=
  .token reads_notAhead fun _ => hn .value

theorem spells_commandCall : Spells [] (commandCall nested) Term.words Term.Paired :=
  spells_identifier.bind fun f _ => .token reads_notAhead fun _ => .token reads_notAhead fun _ =>
    .token reads_notAhead fun _ => (Spells.sepBy1 (spells_commandArgument hn) reads_comma).bind fun args hargs =>
      .pure (by simp [Term.words, wordsAll_eq_flatMap]) (pairedAll_iff.mpr hargs)

theorem spells_value : Spells [] (value nested) Term.words Term.Paired := by
  intro c t c'' hc
  unfold value at hc
  split at hc
  · next target c' hi =>
    have assigned (ht : target.Paired) := (spells_assignment hn ht).orElse (spells_compoundAssignment hn ht)
    simp only at hc
    split at hc
    · next t' c₁ ha =>
      obtain ⟨rfl, rfl⟩ : t' = t ∧ c₁ = c'' := by simpa using hc
      exact (spells_indexed hn).next hi assigned ha
    · cases hc
    · split at hc
      · next t' c₁ hcall =>
        obtain ⟨rfl, rfl⟩ : t' = t ∧ c₁ = c'' := by simpa using hc
        exact spells_commandCall hn c _ _ hcall
      · cases hc
      · exact (spells_indexed hn).next hi
          (fun ht => spells_expressionFrom hn (spells_power hn (.pure rfl ht))) hc
  · exact spells_expressionFrom hn ((spells_minus hn).orElse (spells_power hn (spells_negation hn))) c t c'' hc
  · cases hc

theorem spells_modifier : Spells [] (modifier nested) (fun m => m.2.words) fun m => m.2.Paired := by
  refine .token (s := _ <|> _ <|> _) ?_ fun kind => (hn .expression).bind fun t ht => .pure (by simp) ht
  exact ((reads_keyword _).after fun _ => Reads.pure fun _ => trivial).orElse
    (((reads_keyword _).after fun _ => Reads.pure fun _ => trivial).orElse
      ((reads_keyword _).after fun _ => Reads.pure fun _ => trivial))

theorem spells_statement : Spells [] (statement nested) Term.words Term.Paired :=
  (spells_value hn).bind fun base hbase => (Spells.many (spells_modifier hn)).bind fun ms hms =>
    .pure (by simp [Term.words_foldl_modified]) (Term.paired_foldl_modified hbase hms)

theorem spells_block : Spells [] (block nested) Term.words Term.Paired :=
  .token reads_separators fun _ => (spells_optionalTerms trivial
    ((Spells.sepBy1 (spells_statement hn) reads_separators1).mono fun w ts ⟨h, hok⟩ =>
      ⟨by simpa [wordsAll_eq_flatMap] using h, pairedAll_iff.mpr hok⟩)).bind fun ts hts =>
        .token reads_separators fun _ => .pure (by simp [Term.words]) hts

theorem spells_rule : NestedSpell (rule nested)
  | .expression => spells_expression hn
  | .negated => spells_negated hn
  | .signed => spells_signed hn
  | .value => spells_value hn
  | .statement => spells_statement hn
  | .block => spells_block hn

end

/-- What is read as a phrase spells the names of its term, in their order. -/
theorem spells_phrase (depth : Nat) : NestedSpell (phrase depth) := by
  induction depth with
  | zero => exact fun _ => Reads.giveUp
  | succ depth ih => exact spells_rule ih

end MinRuby.Syntax
