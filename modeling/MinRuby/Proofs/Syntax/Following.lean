import MinRuby.Proofs.Syntax.Beyond

/-!
# What follows a phrase

What has to follow a phrase for it not to go on. Then what has been read of a text that breaks off somewhere behind is
read of the longer text too: the grammar is gone through once more, each part with what the next part starts with.

* `follow` — what follows each phrase.
* `keeps_chain`, `keeps_primary` — operators and operands are read alike in both texts.
-/

namespace MinRuby.Syntax

open MinRuby.Syntax.Parser

/-! ## Ends -/

/-- Neither arguments nor an index follow. -/
structure EndsBase (c : Cursor) : Prop where
  noArguments : c.rest.head? ≠ some '('
  noIndex : c.rest.head? ≠ some '['

/-- Nor does an exponent. -/
structure EndsOperand (c : Cursor) : Prop extends EndsBase c where
  noExponent : symbol "**" c = .fail
  ready : c.Ready

/-- What follows a block that is nested in a phrase. -/
def blockEnds : List Lead := [.word "end", .word "else", .word "elsif", .word "when"]

/-- What follows a statement. -/
def statementEnds : List Lead := .finish :: .mark '\n' :: .mark ';' :: .mark ')' :: blockEnds

/-- What follows a value that is no argument. -/
def valueEnds : List Lead := .word "if" :: .word "unless" :: .word "while" :: statementEnds

/-- Nothing follows that belongs to the value, unless it is a further argument of the command it stands in. -/
def EndsValue (c : Cursor) : Prop := c.lead ∈ valueEnds ∨ (do comma; commandArgument read : Parser Term) c ≠ .fail

/-- What follows each phrase. -/
def follow : Phrase → Cursor → Prop
  | .expression | .signed => EndsOperand
  | .negated => EndsBase
  | .value => EndsValue
  | .statement => fun c => c.lead ∈ statementEnds
  | .block => fun c => c.lead ∈ blockEnds

section

variable {c : Cursor} {z : Char} {K : List Lead}

theorem endsBase_of_lead (h : c.lead ∈ K) (hK : .mark '(' ∉ K ∧ .mark '[' ∉ K) : EndsBase c :=
  ⟨head_ne_of_lead h (by decide) (by decide) hK.1, head_ne_of_lead h (by decide) (by decide) hK.2⟩

theorem endsOperand_of_lead (h : c.lead ∈ K)
    (hK : (.mark '(' ∉ K ∧ .mark '[' ∉ K) ∧ .mark '*' ∉ K ∧ .mark '\\' ∉ K) : EndsOperand c where
  toEndsBase := endsBase_of_lead h hK.1
  noExponent := (ledBy_symbol (x := '*') rfl (by decide)).fails fun hlead =>
    hK.2.1 (List.mem_singleton.mp hlead ▸ h)
  ready := ready_of_lead h hK.2.2

theorem EndsValue.lead (h : EndsValue c) : c.lead ∈ .mark ',' :: valueEnds := by
  rcases h with h | h
  · exact List.mem_cons_of_mem _ h
  · have hcomma : LedBy (do comma; commandArgument read) [.mark ','] := (ledBy_symbol rfl (by decide)).bind.bind
    exact List.mem_cons.mpr (.inl (List.mem_singleton.mp (hcomma c h)))

theorem EndsValue.endsOperand (h : EndsValue c) : EndsOperand c := endsOperand_of_lead h.lead (by decide)

end

/-! ## Lists -/

/-- A mark that closes a list: nothing in the list starts with it. -/
structure Closer (o : String) (z : Char) : Prop where
  chars : o.toList = [z]
  isMark : Lead.ofChar z = .mark z
  apart : z ∉ ['-', '!', '"', '\'', '[', '\x7b', '(', '\\', '\n', ' ', ',', '*']

theorem closer_parenthesis : Closer ")" ')' := ⟨rfl, by decide, by decide⟩

theorem closer_bracket : Closer "]" ']' := ⟨rfl, by decide, by decide⟩

theorem closer_brace : Closer "\x7d" '\x7d' := ⟨rfl, by decide, by decide⟩

section

variable {o : String} {z : Char} (ho : Closer o z)
include ho

theorem Closer.ledBy : LedBy (symbol o) [.mark z] := ledBy_symbol ho.chars ho.isMark

theorem Closer.not_atBreak : o.toList.any atBreak = false := by
  have hapart := ho.apart
  simp only [List.mem_cons, not_or] at hapart
  simp [ho.chars, atBreak, hapart]

/-- No item stands where the list ends. -/
theorem Closer.bars : Lead.bars [.mark '\n', .mark z] valueLeads = true := by
  have hapart := ho.apart
  simp only [List.mem_cons, not_or] at hapart
  simp [Lead.bars, valueLeads, operandLeads, hapart]

theorem Closer.endsOperand {c : Cursor} (h : c.lead ∈ [.mark ',', .mark '\n', .mark z]) : EndsOperand c := by
  have hapart := ho.apart
  simp only [List.mem_cons, not_or] at hapart
  exact endsOperand_of_lead h (by simp [eq_comm, hapart])

theorem Closer.inside {c : Cursor} (h : c.lead ∈ valueLeads ++ [.mark '\n', .mark z]) : c.Inside := by
  have hapart := ho.apart
  simp only [List.mem_cons, not_or] at hapart
  refine inside_of_lead h ⟨by simp [valueLeads, operandLeads], ?_⟩
  simp [valueLeads, operandLeads, Ne.symm hapart.2.2.2.2.2.2.2.1]

end

/-- The closing mark follows, perhaps on a later line. -/
def Closed (o : String) (c : Cursor) : Prop := (do newlines; symbol o : Parser Unit) c ≠ .fail

theorem ledBy_newlines {α : Type} {q : Parser α} {K : List Lead} (hq : LedBy q K) :
    LedBy (do newlines; q) (.mark '\n' :: K) :=
  .after (K := [.mark '\n']) (fun _ => newlines_of_lead) hq

theorem ledBy_separators {α : Type} {q : Parser α} {K : List Lead} (hq : LedBy q K) :
    LedBy (do separators; q) (.mark '\n' :: .mark ';' :: K) :=
  .after (K := [.mark '\n', .mark ';']) (fun _ => separators_of_lead) hq

theorem takes_comma : Takes comma := Advances.comma.takes

theorem ledBy_comma : LedBy comma [.mark ','] := (ledBy_symbol rfl (by decide)).bind

namespace Closed

variable {o : String} {z : Char} {c : Cursor} {α : Type}

theorem of_ne_fail {q : Unit → Parser α} (h : (newlines >>= fun _ => symbol o >>= q) c ≠ .fail) : Closed o c :=
  fun hfail => h (bind_bind_of_fail hfail)

theorem fails {q : Unit → Parser α} (h : ¬ Closed o c) : (newlines >>= fun _ => symbol o >>= q) c = .fail := by
  by_contra hread
  exact h (of_ne_fail hread)

theorem ne_fail {t : α} (h : Closed o c) : (do newlines; symbol o; return t : Parser α) c ≠ .fail := by
  cases hread : newlines c with
  | done u c' =>
    rw [bind_of_done hread]
    exact fun hfail => h ((bind_of_done hread).trans (fail_of_bind (fun _ => pure_ne_fail t) hfail))
  | fail => exact absurd (bind_of_fail hread) h
  | giveUp r =>
    rw [bind_of_giveUp hread]
    exact nofun

theorem lead (h : Closed o c) (ho : Closer o z) : c.lead ∈ [.mark '\n', .mark z] :=
  ledBy_newlines (ho.ledBy) c h

/-- The line ends before the closing mark. -/
theorem newlines (h : Closed o c) (ho : Closer o z) :
    Continues Parser.newlines (fun _ c' => c'.lead ∈ [.mark z]) c := by
  unfold Continues
  cases hread : Parser.newlines c with
  | done u c' => exact ho.ledBy c' fun hfail => h ((bind_of_done hread).trans hfail)
  | fail => exact h (bind_of_fail hread)
  | giveUp r => trivial

end Closed

section

variable {x y : List Char} {n : Nat} {α β : Type} {item : Parser α} {list : Parser α} {o : String} {z : Char}
  (hcut : Cut x y)
include hcut

/-- A closing mark with line ends before it. -/
theorem keeps_closing (ho : Closer o z) (t : β) {F : β → Cursor → Prop} :
    Keeps x y n (do newlines; symbol o; return t) F := by
  refine (keeps_newlines hcut).bind (fun _ => ?_) fun _ c h => ho.inside (List.mem_append_right _ ?_)
  · exact .andThen (keeps_symbol hcut ho.chars ho.isMark ho.not_atBreak) fun _ => .pure t
  · exact List.mem_cons_of_mem _ (h.lead ho.ledBy.bind)

/-- A list that may be empty, up to its closing mark. -/
theorem keeps_enclosed (ho : Closer o z) (hlist : Keeps x y n list fun _ => Closed o) (hled : LedBy list valueLeads)
    (t : Option α → β)
    {F : β → Cursor → Prop} :
    Keeps x y n (do newlines; let items ← optional list; newlines; symbol o; return t items) F := by
  have hoptional : Keeps x y n (optional list) fun _ => Closed o :=
    hlist.optional fun c _ h => hled.fails_beyond hcut (h.lead ho) ho.bars
  refine (keeps_newlines hcut).bind (fun _ => hoptional.bind (fun items => keeps_closing hcut ho _) ?_) ?_
  · exact fun _ c h => .of_ne_fail h.ne_fail
  · intro _ c h
    exact ho.inside (h.lead (LedBy.optional hled (ledBy_newlines ho.ledBy.bind)))

/-- Items with commas between them. -/
theorem keeps_items {G : Cursor → Prop} (hitem : Keeps x y n item fun _ => EndsOperand) (hled : LedBy item valueLeads)
    (hends : ∀ c, G c → EndsOperand c)
    (hstop : ∀ c : Cursor, (do comma; item) (c.append x) = .fail → G (c.append x) → (do comma; item) (c.append y) = .fail) :
    Keeps x y n (sepBy1 item comma) fun _ => G := by
  refine Keeps.sepBy1 hcut hitem takes_comma ?_ ledBy_comma (by simp) (fun _ c h => ?_) (fun _ => hends) hstop
  · exact (keeps_comma hcut).bind (fun _ => hitem) fun _ c h => inside_of_lead (h.lead hled) (by decide)
  · exact endsOperand_of_lead (ledBy_comma.bind c h) (by decide)

/-- A comma may end the list. -/
theorem keeps_trailing (ho : Closer o z) (hitem : Keeps x y n item fun _ => EndsOperand) (hled : LedBy item valueLeads)
    (g : List α → List Term) :
    Keeps x y n (do let items ← sepBy1 item comma; let _ ← optional (symbol ","); return g items) fun _ => Closed o := by
  have hsymbol {F : Unit → Cursor → Prop} : Keeps x y n (symbol ",") F := keeps_symbol hcut rfl (by decide) (by decide)
  refine Keeps.bind (F := fun _ => Continues (optional (symbol ",")) fun _ => Closed o)
    (keeps_items hcut hitem hled (fun c h => ?_) fun c hfail h => ?_) (fun items => ?_) ?_
  · refine ho.endsOperand ?_
    by_cases hcomma : symbol "," c = .fail
    · exact List.mem_cons_of_mem _ ((h.of_done (optional_of_fail hcomma)).lead ho)
    · exact List.mem_of_mem_head? (List.mem_singleton.mp (ledBy_symbol rfl (by decide) c hcomma) ▸ rfl)
  · by_cases hcomma : symbol "," (c.append x) = .fail
    · have hlead := (h.of_done (optional_of_fail hcomma)).lead ho
      have hinside := ho.inside (List.mem_append_right valueLeads hlead)
      exact bind_of_fail (bind_of_fail ((sameAt_symbol hcut hinside.2 (by decide)).fails hcomma))
    · -- behind the last comma stands the closing mark, and no item in either text
      have hmark : Continues comma (fun _ c' => c'.lead ∈ [.mark z]) (c.append x) := by
        refine continues_bind.mpr ?_
        unfold Continues at h ⊢
        cases hread : symbol "," (c.append x) with
        | done u c' =>
          rw [optional_of_done hread] at h
          exact h.newlines ho
        | fail => exact hcomma hread
        | giveUp r => trivial
      have hcommas := (keeps_comma (n := c.rest.length + 1) hcut).same c (Nat.lt_succ_self _) (hmark.mono fun _ c' h =>
        ho.inside (List.mem_append_right _ (List.mem_cons_of_mem _ h)))
      refine (hcommas.bind fun _ c' hc' => ?_ : SameAt x y (do comma; item) c).fails hfail
      have hlead := List.mem_cons_of_mem (.mark '\n') (hmark.of_done hc')
      have hnone : item (c'.append x) = .fail := (bind_of_done hc').symm.trans hfail
      rw [SameAt, hnone, hled.fails_beyond hcut hlead ho.bars]
      exact .fail
  · refine Keeps.bind (F := fun _ => Closed o) (hsymbol.optional fun c hfail h => ?_) (fun _ => .pure _) fun _ _ h => h
    exact (sameAt_symbol hcut (ho.inside (List.mem_append_right _ (h.lead ho))).2 (by decide)).fails hfail
  · exact fun _ c h => continues_bind.mp h

end

/-! ## Operands -/

theorem ledBy_expressions : LedBy (expressions read) valueLeads := (ledBy_read (p := .expression) nofun).bind

theorem ledBy_keyAndValue : LedBy (keyAndValue read) valueLeads := (ledBy_read (p := .expression) nofun).bind

section

variable {x y : List Char} {n : Nat} (hcut : Cut x y) (hn : ∀ p, Keeps x y n (read p) fun _ => follow p)
include hcut hn

theorem keeps_callWithParentheses {F : Term → Cursor → Prop} : Keeps x y (n + 1) (callWithParentheses read) F := by
  have hargs : Keeps x y n (expressions read) fun _ => Closed ")" := by
    refine keeps_items hcut (hn .expression) (ledBy_read nofun) (fun c h => ?_) fun c _ h => ?_
    · exact endsOperand_of_lead (h.lead closer_parenthesis) (by decide)
    · exact ledBy_comma.bind.fails_beyond hcut (h.lead closer_parenthesis) (by decide)
  refine .tokenThen takes_identifier (keeps_identifier hcut) fun function => ?_
  refine .andThen (.of_token (reads_adjacent _) fun c _ => sameAt_adjacent hcut (by decide)) fun _ => ?_
  exact keeps_enclosed hcut closer_parenthesis hargs ledBy_expressions fun args => Term.call function (args.getD [])

theorem keeps_arrayLiteral {F : Term → Cursor → Prop} : Keeps x y (n + 1) (arrayLiteral read) F := by
  have hitems := keeps_trailing hcut closer_bracket (hn .expression) (ledBy_read nofun) id
  refine keeps_behindSymbol hcut rfl (by decide) (by decide) ?_
  exact keeps_enclosed hcut closer_bracket hitems ledBy_expressions.bind fun items => Term.array (items.getD [])

theorem keeps_keyAndValue : Keeps x y n (keyAndValue read) fun _ => EndsOperand := by
  have hvalue (key : Term) : Keeps x y n (do newlines; let value ← read .expression; return [key, value]) fun _ => EndsOperand :=
    (keeps_newlines hcut).bind (fun _ => (hn .expression).map _) fun _ _ h =>
      inside_of_lead (h.lead (ledBy_read (p := .expression) nofun).bind) (by decide)
  refine (hn .expression).bind (fun key => ?_) fun _ c h => ?_
  · exact .andThen (keeps_symbol hcut rfl (by decide) (by decide)) fun _ => hvalue key
  · exact endsOperand_of_lead (h.lead (ledBy_symbol (x := '=') rfl (by decide)).bind) (by decide)

theorem keeps_hashLiteral {F : Term → Cursor → Prop} : Keeps x y (n + 1) (hashLiteral read) F := by
  have hitems := keeps_trailing hcut closer_brace (keeps_keyAndValue hcut hn) ledBy_keyAndValue List.flatten
  refine keeps_behindSymbol hcut rfl (by decide) (by decide) ?_
  exact keeps_enclosed hcut closer_brace hitems ledBy_keyAndValue.bind.bind fun items => Term.hash (items.getD [])

/-- What stands between two marks. -/
theorem keeps_between {p : Phrase} {o : String} {z : Char} (ho : Closer o z) (hp : p ≠ .block)
    (hends : ∀ c, Closed o c → follow p c) {F : Term → Cursor → Prop} :
    Keeps x y n (do newlines; let inner ← read p; newlines; symbol o; return inner) F :=
  (keeps_newlines hcut).bind
    (fun _ => (hn p).bind (fun inner => keeps_closing hcut ho inner) fun _ c h => hends c (.of_ne_fail h.ne_fail))
    fun _ _ h => ho.inside (List.mem_append_left _ (h.lead (ledBy_read hp).bind))

theorem keeps_parenthesized {F : Term → Cursor → Prop} : Keeps x y (n + 1) (parenthesized read) F := by
  refine keeps_behindSymbol hcut rfl (by decide) (by decide) ?_
  refine keeps_between (p := .statement) hcut hn closer_parenthesis nofun fun c h => ?_
  exact (by decide : ∀ l ∈ [Lead.mark '\n', .mark ')'], l ∈ statementEnds) _ (h.lead closer_parenthesis)

theorem keeps_indexing {F : Term → Cursor → Prop} : Keeps x y (n + 1) (indexing read) F := by
  refine .tokenThen (takes_adjacent (by decide)) (.of_token (reads_adjacent _) fun c _ => sameAt_adjacent hcut (by decide))
    fun _ => ?_
  exact keeps_between (p := .expression) hcut hn closer_bracket nofun fun c h =>
    endsOperand_of_lead (h.lead closer_bracket) (by decide)

end

/-! ## Branches -/

/-- What a block that is nested in a phrase starts with, or what follows it if it is empty. -/
def blockLeads : List Lead := .mark '\n' :: .mark ';' :: valueLeads ++ blockEnds

/-- A block that is not empty starts with a statement. -/
theorem statement_of_block {c : Cursor} (h : Continues (read .block) (fun _ => follow .block) c)
    (hlead : c.lead ∉ [.mark '\n', .mark ';'] ++ blockEnds) : statement read c ≠ .fail := by
  intro hstatement
  rw [List.mem_append, not_or] at hlead
  have hmarks : separators c = .done () c := separators_of_lead hlead.1
  have hnone : sepBy1 (statement read) separators1 c = .fail := bind_of_fail hstatement
  have hempty : block read c = .done (.block []) c := by
    rw [block, bind_of_done hmarks, bind_of_done (optional_of_fail hnone), bind_of_done hmarks]
    rfl
  rw [read_eq] at h
  exact hlead.2 (h.of_done hempty)

theorem lead_of_block {c : Cursor} (h : Continues (read .block) (fun _ => follow .block) c) : c.lead ∈ blockLeads := by
  by_cases hlead : c.lead ∈ [.mark '\n', .mark ';'] ++ blockEnds
  · exact (by decide : ∀ l ∈ [Lead.mark '\n', .mark ';'] ++ blockEnds, l ∈ blockLeads) _ hlead
  · exact (by decide : ∀ l ∈ valueLeads, l ∈ blockLeads) _ (ledBy_statement _ (statement_of_block h hlead))

theorem ledBy_bodyStart_then : LedBy (bodyStart "then") [.mark '\n', .mark ';', .word "then", .mark '\n', .mark ';'] :=
  (ledBy_separators (ledBy_keyword (by decide))).orElse ledBy_separator.bind

theorem ledBy_elseBranch : LedBy (elseBranch read) [.word "else"] := (ledBy_keyword (by decide)).bind

theorem ledBy_otherwise (g : Option Term → Term) :
    LedBy (do let otherwise ← optional (elseBranch read); keyword "end"; return g otherwise : Parser Term)
      [.word "else", .word "end"] :=
  .optional (ledBy_elseBranch) (ledBy_keyword (by decide)).bind

theorem takes_clause {word : String} (h : word.toList ≠ []) : Takes (clause read word) :=
  (takes_keyword h).bind fun _ => readsPrefix_bind (reads_read .expression) fun _ =>
    readsPrefix_bind (reads_bodyStart _) fun _ => readsPrefix_bind (reads_read .block) fun _ => Reads.pure trivial

/-- The word that ends a phrase. -/
theorem keeps_ending {x y : List Char} {n : Nat} (hcut : Cut x y) {α : Type} (a : α) {F : α → Cursor → Prop} :
    Keeps x y n (do keyword "end"; return a) F :=
  .andThen (keeps_keyword hcut (by decide)) fun _ => .pure a

/-- The word that ends a phrase ends the block before it. -/
theorem endsBlock_of_ending {α : Type} {a : α} {F : α → Cursor → Prop} {c : Cursor}
    (h : Continues (do keyword "end"; return a) F c) : follow .block c :=
  (by decide : ∀ l ∈ [Lead.word "end"], l ∈ blockEnds) _ (h.lead (ledBy_keyword (by decide)).bind)

section

variable {x y : List Char} {n : Nat} (hcut : Cut x y) (hn : ∀ p, Keeps x y n (read p) fun _ => follow p)
include hcut hn

/-- A condition or the like and the block behind it. -/
theorem keeps_body {word : String} (hword : word ∈ keywords) {α : Type} (g : Term → α) :
    Keeps x y n (do bodyStart word; let body ← read .block; return g body) fun _ => follow .block :=
  (keeps_bodyStart hcut hword).bind (fun _ => (hn .block).map _) fun _ _ h =>
    inside_of_lead (lead_of_block (continues_bind.mp h)) (by decide)

theorem keeps_clause {word : String} (hword : word ∈ keywords) :
    Keeps x y (n + 1) (clause read word) fun _ => follow .block := by
  refine keeps_behindKeyword hcut hword ?_
  refine (hn .expression).bind (fun test => keeps_body hcut hn (by decide) _) fun _ c h => ?_
  exact endsOperand_of_lead (h.lead (ledBy_bodyStart_then).bind) (by decide)

theorem keeps_elseBranch : Keeps x y (n + 1) (elseBranch read) fun _ => follow .block :=
  keeps_behindKeyword hcut (by decide) (hn .block)

theorem keeps_otherwise (g : Option Term → Term) {F : Term → Cursor → Prop} :
    Keeps x y (n + 1) (do let otherwise ← optional (elseBranch read); keyword "end"; return g otherwise) F := by
  refine .bind (F := fun _ c => c.lead ∈ [.word "end"]) ?_ (fun otherwise => keeps_ending hcut _) fun _ c h =>
    h.lead (ledBy_keyword (by decide)).bind
  exact ((keeps_elseBranch hcut hn).mono fun _ c h => (by decide : ∀ l ∈ [Lead.word "end"], l ∈ blockEnds) _ h).optional
    fun c _ h => ledBy_elseBranch.fails_beyond hcut h (by decide)

theorem keeps_ifExpression {F : Term → Cursor → Prop} : Keeps x y (n + 1) (ifExpression read) F := by
  have hends : ∀ l ∈ [Lead.word "else", .word "end"], l ∈ blockEnds := by decide
  have hclauses : Keeps x y (n + 1) (many (clause read "elsif")) fun _ c => c.lead ∈ [.word "else", .word "end"] :=
    Keeps.many hcut (takes_clause (by decide)) (keeps_clause hcut hn (by decide))
      (ledBy_clause (by decide)) (by simp) (fun _ c h => (by decide : ∀ l ∈ [Lead.word "elsif"], l ∈ blockEnds) _
        (ledBy_clause (by decide) c h)) (fun _ c h => hends _ h)
      fun c _ h => (ledBy_clause (by decide)).fails_beyond hcut h (by decide)
  refine (keeps_clause hcut hn (by decide)).bind (fun first => ?_) fun _ c h => ?_
  · exact hclauses.bind (fun clauses => keeps_otherwise hcut hn _) fun _ c h => h.lead (ledBy_otherwise _)
  · have hlead := h.lead (LedBy.many (ledBy_clause (by decide)) (ledBy_otherwise _))
    exact (by decide : ∀ l ∈ [Lead.word "elsif", .word "else", .word "end"], l ∈ blockEnds) _ hlead

theorem keeps_unlessExpression {F : Term → Cursor → Prop} : Keeps x y (n + 1) (unlessExpression read) F := by
  refine (keeps_clause hcut hn (by decide)).bind (fun first => keeps_otherwise hcut hn _) fun _ c h => ?_
  exact (by decide : ∀ l ∈ [Lead.word "else", .word "end"], l ∈ blockEnds) _ (h.lead (ledBy_otherwise _))

/-- A body up to the word that ends the phrase. -/
theorem keeps_bodyEnd {word : String} (hword : word ∈ keywords) (g : Term → Term) {F : Term → Cursor → Prop} :
    Keeps x y n (do bodyStart word; let body ← read .block; keyword "end"; return g body) F := by
  refine (keeps_bodyStart hcut hword).bind
    (fun _ => (hn .block).bind (fun body => keeps_ending hcut _) fun _ _ => endsBlock_of_ending) fun _ c h => ?_
  exact inside_of_lead (lead_of_block ((continues_bind.mp h).mono fun _ _ => endsBlock_of_ending)) (by decide)

theorem keeps_whileExpression {F : Term → Cursor → Prop} : Keeps x y (n + 1) (whileExpression read) F := by
  refine keeps_behindKeyword hcut (by decide) ?_
  refine (hn .expression).bind (fun test => keeps_bodyEnd hcut hn (by decide) _) fun _ c h => ?_
  have hdo : LedBy (bodyStart "do") [.mark '\n', .mark ';', .word "do", .mark '\n', .mark ';'] :=
    (ledBy_separators (ledBy_keyword (by decide))).orElse ledBy_separator.bind
  exact endsOperand_of_lead (h.lead hdo.bind) (by decide)

theorem keeps_beginExpression {F : Term → Cursor → Prop} : Keeps x y (n + 1) (beginExpression read) F := by
  refine keeps_behindKeyword hcut (by decide) ?_
  exact (hn .block).bind (fun body => keeps_ending hcut _) fun _ _ => endsBlock_of_ending

theorem keeps_whenClause : Keeps x y (n + 1) (whenClause read) fun _ => follow .block := by
  refine keeps_behindKeyword hcut (by decide) ?_
  refine Keeps.bind (F := fun _ c => c.lead ∈ [.mark '\n', .mark ';', .word "then", .mark '\n', .mark ';']) ?_
    (fun values => keeps_body hcut hn (by decide) _) fun _ c h => h.lead ledBy_bodyStart_then.bind
  refine keeps_items hcut (hn .expression) (ledBy_read nofun) (fun c h => ?_) fun c _ h => ?_
  · exact endsOperand_of_lead h (by decide)
  · exact ledBy_comma.bind.fails_beyond hcut h (by decide)

theorem keeps_caseExpression {F : Term → Cursor → Prop} : Keeps x y (n + 1) (caseExpression read) F := by
  have hwhen : LedBy (whenClause read) [.word "when"] := (ledBy_keyword (by decide)).bind
  have htakes : Takes (whenClause read) := (takes_keyword (by decide)).bind fun _ =>
    readsPrefix_bind (readsPrefix_sepBy1 (reads_read .expression) reads_comma) fun _ =>
      readsPrefix_bind (reads_bodyStart _) fun _ => readsPrefix_bind (reads_read .block) fun _ => Reads.pure trivial
  have hends : ∀ l ∈ [Lead.word "when", .word "else", .word "end"], l ∈ blockEnds := by decide
  have hnext (c : Cursor) (h : whenClause read c ≠ .fail) : follow .block c :=
    (by decide : ∀ l ∈ [Lead.word "when"], l ∈ blockEnds) _ (hwhen c h)
  have hmany : Keeps x y (n + 1) (many (whenClause read)) fun _ c => c.lead ∈ [.word "else", .word "end"] :=
    Keeps.many hcut htakes (keeps_whenClause hcut hn) hwhen (by simp) (fun _ => hnext)
      (fun _ c h => hends _ (List.mem_cons_of_mem _ h)) fun c _ h => hwhen.fails_beyond hcut h (by decide)
  have hclauses : Keeps x y (n + 1) (many1 (whenClause read)) fun _ c => c.lead ∈ [.word "else", .word "end"] :=
    (keeps_whenClause hcut hn).bind (fun _ => hmany.map _) fun _ c h =>
      (continues_bind.mp h).of_many.elim (hnext c) fun h => hends _ (List.mem_cons_of_mem _ h)
  refine keeps_behindKeyword hcut (by decide) ?_
  refine (hn .expression).bind (fun subject => ?_) fun _ c h => ?_
  · refine (keeps_separators hcut).bind (fun _ => ?_) fun _ c h => inside_of_lead (h.lead hwhen.bind.bind) (by decide)
    exact hclauses.pred.bind (fun clauses => (keeps_otherwise hcut hn _).pred) fun _ c h => h.lead (ledBy_otherwise _)
  · exact endsOperand_of_lead (h.lead (ledBy_separators hwhen.bind.bind)) (by decide)

end

/-! ## Operators -/

section

variable {o : String} {level : Level} {c : Cursor}

theorem advances_operator (h : ∀ o ∈ level, isOperator o.1 = true) : Advances level.operator :=
  .operator fun o ho => by
    obtain ⟨z, more, hchars, -⟩ := exists_of_startsOperator (startsOperator_of_isOperator (h o ho))
    rw [hchars]
    rfl

theorem exists_of_symbol (h : symbol o c ≠ .fail) : ∃ tail, c.skipBlanks.rest = o.toList ++ tail := by
  rw [symbol_eq] at h
  split at h
  · next hprefix =>
    obtain ⟨tail, hrest⟩ := List.isPrefixOf_iff_prefix.mp hprefix
    exact ⟨tail, hrest.symm⟩
  · exact absurd rfl h

/-- No operator stands where two stars do: a single star is not one of two. -/
theorem spelling_of_stars (h : symbol "**" c ≠ .fail) (ho : isOperator o = true) : spelling o c = .fail := by
  obtain ⟨tail, hrest⟩ : ∃ tail, c.skipBlanks.rest = '*' :: '*' :: tail := exists_of_symbol h
  unfold spelling
  split
  · next ho =>
    subst ho
    have hstar : symbol "*" c = .done () ⟨some '*', '*' :: tail⟩ := symbol_of_rest (w := []) rfl hrest
    rw [bind_of_done hstar]
    exact notAhead_of_done (adjacent_of_rest rfl)
  · next hstar =>
    obtain ⟨z, more, hchars, -⟩ := exists_of_startsOperator (startsOperator_of_isOperator ho)
    have hother := (Bool.and_eq_true_iff.mp (Bool.and_eq_true_iff.mp ho).1).2
    rw [hchars, beq_eq_false_iff_ne.mpr hstar, Bool.false_or, List.head?_cons, bne_iff_ne] at hother
    refine symbol_of_ne hrest ?_
    rw [hchars, List.head?_cons, Option.any_some, bne_iff_ne]
    exact fun hz => hother (congrArg some hz)

/-- An operand ends where an operator stands. -/
theorem endsOperand_of_operator (h : ∀ o ∈ level, isOperator o.1 = true) (hc : level.operator c ≠ .fail) :
    EndsOperand c := by
  have hlead := ledBy_operator h c hc
  refine ⟨endsBase_of_lead hlead (by decide), ?_, ready_of_lead hlead (by decide)⟩
  by_contra hstars
  refine hc ?_
  clear hc hlead
  induction level with
  | nil => rfl
  | cons o level ih =>
    refine (orElse_of_fail (bind_of_fail (spelling_of_stars hstars (h o List.mem_cons_self)))).trans ?_
    exact ih fun o' ho' => h o' (List.mem_cons_of_mem o ho')

end

section

variable {x y : List Char} {n : Nat} {level : Level} {c : Cursor} (hcut : Cut x y)
include hcut

theorem sameAt_spelling {o : String} (h : isOperator o = true) (hready : (c.append x).Ready) :
    SameAt x y (spelling o) c := by
  have hsymbol := sameAt_symbol hcut hready (not_atBreak_of_isOperator h)
  unfold spelling
  split
  · next ho =>
    subst ho
    exact hsymbol.bind fun _ _ _ => (sameAt_adjacent hcut (by decide)).notAhead
  · exact hsymbol

/-- An operator is read alike if its operand stands before the break. -/
theorem sameAt_operator (h : ∀ o ∈ level, isOperator o.1 = true) (hready : (c.append x).Ready)
    (hdone : ∀ op c', level.operator (c.append x) = .done op c' → c'.Inside) : SameAt x y level.operator c := by
  induction level with
  | nil => exact .fail
  | cons o level ih =>
    have hrest (ops : Level) (o : String × Connective) : Level.operator (o :: ops) =
      ((do spelling o.1; newlines; return o.2) <|> Level.operator ops) := rfl
    rw [hrest] at hdone ⊢
    refine SameAt.orElse (.bind (sameAt_spelling hcut (h o List.mem_cons_self) hready) fun _ c' hc' => ?_) fun hfail => ?_
    · refine .bind ((keeps_newlines (n := c'.rest.length + 1) hcut).same c' (Nat.lt_succ_self _) ?_) fun _ _ _ => .pure _
      unfold Continues
      cases hlines : newlines (c'.append x) with
      | done u c'' =>
        refine hdone o.2 c'' (orElse_of_done ?_)
        rw [bind_of_done hc', bind_of_done hlines]
        rfl
      | fail => exact newlines_ne_fail _ hlines
      | giveUp r => trivial
    · refine ih (fun o' ho' => h o' (List.mem_cons_of_mem o ho')) fun op c' hop => hdone op c' ?_
      rw [orElse_of_fail hfail, hop]

omit hcut in
theorem leftChain_of_done {operator : Parser Connective} {operand : Parser Term} {op : Connective} {c' : Cursor}
    (h : operator c = .done op c') (k : Nat) (left : Term) : leftChain operator operand (k + 1) left c =
      (operand >>= fun right => leftChain operator operand k (.binary op left right)) c' := by
  rw [leftChain_succ]
  exact bind_of_done (optional_of_done h)

/-- Operators and operands up to something that is no operator. -/
theorem same_leftChain {operand : Parser Term} (h : ∀ o ∈ level, isOperator o.1 = true)
    (ho : Keeps x y n operand fun _ => EndsOperand) (hled : LedBy operand valueLeads) :
    ∀ (k m : Nat) (left : Term) (c : Cursor), (c.append x).rest.length ≤ k → (c.append y).rest.length ≤ m →
      c.rest.length < n → Continues (leftChain level.operator operand k left) (fun _ => EndsOperand) (c.append x) →
        Same x y (leftChain level.operator operand k left (c.append x))
          (leftChain level.operator operand m left (c.append y)) := by
  intro k
  induction k with
  | zero =>
    intro m left c hk _ _ hc
    have hend : (c.append x).rest = [] := List.length_eq_zero_iff.mp (Nat.le_zero.mp hk)
    have hnone := (ledBy_operator h).fails_of_end (by decide) hend
    have hsame := sameAt_operator hcut h hc.ready fun _ _ hop => by
      rw [hnone] at hop
      cases hop
    rw [leftChain_of_fail (hsame.fails hnone)]
    exact .done left c
  | succ k ih =>
    intro m left c hk hm hlength hc
    obtain ⟨m, rfl⟩ : ∃ m', m = m' + 1 := ⟨m - 1, by
      have hpos : 0 < y.length := by cases hcut <;> exact Nat.succ_pos _
      rw [Cursor.rest_append, List.length_append] at hm
      omega⟩
    cases hop : level.operator (c.append x) with
    | done op c₁ =>
      have hnext : Continues (operand >>= fun right => leftChain level.operator operand k (.binary op left right))
          (fun _ => EndsOperand) c₁ := by
        rwa [Continues, leftChain_of_done hop] at hc
      have hready : (c.append x).Ready :=
        ready_of_lead (ledBy_operator h (c.append x) (by rw [hop]; rintro ⟨⟩)) (by decide)
      have hsame := sameAt_operator hcut h hready fun op' c₁' hop' => by
        obtain ⟨-, rfl⟩ := Reply.done.inj (hop.symm.trans hop')
        exact inside_of_lead (hnext.lead hled.bind) (by decide)
      obtain ⟨c₂, rfl, hlong⟩ := hsame.done hop
      have hshorter := length_lt_of_takes (advances_operator h).takes hop
      have hnext := continues_bind.mp hnext
      have hoperand := ho.same c₂ (by omega) (hnext.mono fun right c₃ hc₃ => by
        by_cases hfail : level.operator c₃ = .fail
        · exact hc₃.of_done (leftChain_of_fail hfail k)
        · exact endsOperand_of_operator h hfail)
      rw [leftChain_of_done hop, leftChain_of_done hlong]
      refine Same.bind hoperand fun right c₃ hright => ?_
      have hlength₃ := length_le_of_reads ho.reads hright
      simp only [Cursor.rest_append, List.length_append] at hk hm
      exact ih m (.binary op left right) c₃ (by rw [Cursor.rest_append, List.length_append]; omega)
        (by rw [Cursor.rest_append, List.length_append]; omega) (by omega) (hnext.of_done hright)
    | fail =>
      have hready := (hc.of_done (leftChain_of_fail hop _)).ready
      have hsame := sameAt_operator hcut h hready fun _ _ hop' => by
        rw [hop] at hop'
        cases hop'
      rw [leftChain_of_fail hop, leftChain_of_fail (hsame.fails hop)]
      exact .done left c
    | giveUp r =>
      have hready : (c.append x).Ready :=
        ready_of_lead (ledBy_operator h (c.append x) (by rw [hop]; rintro ⟨⟩)) (by decide)
      have hsame := sameAt_operator hcut h hready fun _ _ hop' => by
        rw [hop] at hop'
        cases hop'
      simp only [leftChain, hop, hsame.giveUp hop]
      exact .giveUp r

theorem keeps_chain {operand : Parser Term} (ho : Keeps x y n operand fun _ => EndsOperand) (hled : LedBy operand valueLeads) :
    ∀ {ls : List Level}, (∀ level ∈ ls, ∀ o ∈ level, isOperator o.1 = true) → ∀ {first : Parser Term},
      Keeps x y n first (fun _ => EndsOperand) → Keeps x y n (chain operand ls first) fun _ => EndsOperand
  | [], _, _, hfirst => hfirst
  | level :: tighter, h, first, hfirst => by
    have htighter {first : Parser Term} (hfirst : Keeps x y n first fun _ => EndsOperand) :=
      keeps_chain ho hled (fun l hl => h l (List.mem_cons_of_mem level hl)) hfirst
    have hlevel := h level List.mem_cons_self
    refine (htighter hfirst).bind (fun left => ⟨fun c => ?_, fun c hc hcontinues => ?_⟩) fun left c hc => ?_
    · exact (agree_leftChain (n := n) (reads_operator level) (.refl (htighter ho).reads) c.rest.length left).reads c
    · exact same_leftChain hcut hlevel (htighter ho) (ledBy_chain hled tighter) _ _ left c (Nat.le_refl _) (Nat.le_refl _) hc
        hcontinues
    · by_cases hfail : level.operator c = .fail
      · exact hc.of_done (leftChain_of_fail hfail _)
      · exact endsOperand_of_operator hlevel hfail

end

/-! ## Definitions -/

/-- Parameters up to the closing parenthesis. -/
def parameterNames : Parser (List String) := do
  let names ← optional (sepBy1 identifier comma)
  newlines
  symbol ")"
  return names.getD []

/-- Parameters in parentheses. -/
def parametersIn : Parser (List String) := do
  symbol "("
  newlines
  parameterNames

/-- Parameters without parentheses. -/
def parametersBare : Parser (List String) := do return (← optional (sepBy1 identifier (symbol ","))).getD []

theorem parametersBare_of_no_name {c : Cursor} (h : identifier c = .fail) : parametersBare c = .done [] c := by
  have hnone : sepBy1 identifier (symbol ",") c = .fail := bind_of_fail h
  rw [parametersBare, bind_of_done (optional_of_fail hnone)]
  rfl

theorem parameters_eq : parameters = (parametersIn <|> parametersBare) := rfl

theorem ledBy_parametersIn : LedBy parametersIn [.mark '('] := (ledBy_symbol rfl (by decide)).bind

/-- No name stands in front of what is not the closing parenthesis. -/
theorem parameterNames_of_no_name {c : Cursor} (h : identifier c = .fail)
    (hmarks : (do newlines; symbol ")" : Parser Unit) c = .fail) : parameterNames c = .fail := by
  have hnone : sepBy1 identifier comma c = .fail := bind_of_fail h
  rw [parameterNames, bind_of_done (optional_of_fail hnone)]
  exact Closed.fails fun h => h hmarks

/-- A single name in front of the closing parenthesis. -/
theorem parameterNames_of_name {c c' : Cursor} {name : String} (h : identifier c = .done name c')
    (hlead : c'.lead ≠ .mark ',') : parameterNames c = (do newlines; symbol ")"; return [name] : Parser (List String)) c' := by
  have hcomma : (do comma; identifier : Parser String) c' = .fail :=
    bind_of_fail (ledBy_comma.fails fun hmem => hlead (List.mem_singleton.mp hmem))
  have hnames : sepBy1 identifier comma c = .done [name] c' := by
    rw [sepBy1, bind_of_done h, bind_of_done (many_of_fail hcomma)]
    rfl
  rw [parameterNames, bind_of_done (optional_of_done hnames)]
  rfl

section

variable {x y : List Char} {n : Nat} (hcut : Cut x y)
include hcut

theorem keeps_parametersIn {F : List String → Cursor → Prop} : Keeps x y n parametersIn F := by
  have hnames : Keeps x y n (sepBy1 identifier comma) fun _ => Closed ")" := by
    refine keeps_items hcut (keeps_identifier hcut) (ledBy_identifier.mono (by decide)) (fun c h => ?_) fun c _ h => ?_
    · exact endsOperand_of_lead (h.lead closer_parenthesis) (by decide)
    · exact ledBy_comma.bind.fails_beyond hcut (h.lead closer_parenthesis) (by decide)
  refine .andThen (keeps_symbol hcut rfl (by decide) (by decide)) fun _ => ?_
  exact keeps_enclosed hcut closer_parenthesis hnames (ledBy_identifier.bind.mono (by decide)) fun names => names.getD []

theorem keeps_parametersBare : Keeps x y n parametersBare fun _ c => c.lead ∈ blockLeads := by
  have hnames : Keeps x y n (sepBy1 identifier (symbol ",")) fun _ c => c.lead ∈ blockLeads := by
    refine Keeps.sepBy1 (F := fun _ _ => True) hcut (keeps_identifier hcut) (takes_symbol (by decide)) ?_
      (ledBy_symbol (x := ',') rfl (by decide)) (by simp) (fun _ _ _ => trivial) (fun _ _ _ => trivial) fun c _ h => ?_
    · exact .andThen (keeps_symbol hcut rfl (by decide) (by decide)) fun _ => keeps_identifier hcut
    · exact (ledBy_symbol (x := ',') rfl (by decide)).bind.fails_beyond hcut h (by decide)
  refine (hnames.optional fun c hfail h => ?_).map _
  have hidentifier : identifier (c.append x) = .fail := fail_of_sepBy1 hfail
  exact bind_of_fail ((sameAt_identifier hcut (ready_of_lead h (by decide))).fails hidentifier)

/-- What is a statement in parentheses and no parameters is so beyond the break: a single name would be both. -/
theorem parameterNames_fail_beyond {c : Cursor}
    (h : (do let inner ← read .statement; newlines; symbol ")"; return inner : Parser Term) (c.append x) ≠ .fail)
    (hnone : parameterNames (c.append x) = .fail) : parameterNames (c.append y) = .fail := by
  have hlead := (ledBy_read (p := .statement) nofun).bind (c.append x) h
  have hsame := sameAt_identifier hcut (ready_of_lead hlead (by decide))
  cases hname : identifier (c.append x) with
  | fail =>
    refine parameterNames_of_no_name (hsame.fails hname) ?_
    exact (ledBy_newlines (ledBy_symbol (x := ')') rfl (by decide))).fails_beyond hcut hlead (by decide)
  | giveUp r =>
    have hnames : optional (sepBy1 identifier comma) (c.append x) = .giveUp r := by
      rw [Parser.optional, sepBy1, bind_of_giveUp hname]
    rw [parameterNames, bind_of_giveUp hnames] at hnone
    cases hnone
  | done name c' =>
    obtain ⟨c', rfl, hlong⟩ := hsame.done hname
    have hends : (c'.append x).lead ∉ nameEnds := by
      intro hends
      rw [bind_of_done ((congrFun (read_eq .statement) _).trans (statement_of_name hname hends))] at h
      have hclosed : Closed ")" (c'.append x) := .of_ne_fail h
      have hcomma : (c'.append x).lead ≠ .mark ',' := fun hcomma => by
        have hlead := hclosed.lead closer_parenthesis
        rw [hcomma] at hlead
        simp at hlead
      rw [parameterNames_of_name hname hcomma] at hnone
      exact hclosed.ne_fail hnone
    have hapart {l : Lead} (hl : l ∈ nameEnds) : (c'.append x).lead ≠ l := fun h => hends (h ▸ hl)
    have hready : (c'.append x).Ready := hapart (by decide)
    have hright : (c'.append y).lead = (c'.append x).lead := by
      rw [hcut.lead_right hready, if_neg (hapart (by decide))]
    have hlines {c : Cursor} (hc : c.lead = (c'.append x).lead) : newlines c = .done () c :=
      newlines_of_lead fun h => hapart (by decide) (hc ▸ List.mem_singleton.mp h)
    have hopen : symbol ")" (c'.append x) = .fail := by
      by_contra hmark
      rw [parameterNames_of_name hname (hapart (by decide))] at hnone
      refine Closed.ne_fail (o := ")") (fun hfail => hmark ?_) hnone
      rwa [bind_of_done (hlines rfl)] at hfail
    rw [parameterNames_of_name hlong (hright ▸ hapart (by decide)), bind_of_done (hlines hright)]
    exact bind_of_fail ((sameAt_symbol hcut hready (by decide)).fails hopen)

end

/-- A statement that starts with a parenthesis starts with a statement in parentheses. -/
theorem parenthesized_ne_fail {c : Cursor} (h : statement read c ≠ .fail) (hlead : c.lead = .mark '(') :
    parenthesized read c ≠ .fail := by
  intro hfail
  have hprimary : primary read c = .fail :=
    (primary_of_lead (a := ([.mark '('], parenthesized read)) (by simp [alternatives]) (by rw [hlead]; simp)).trans hfail
  refine h (bind_of_fail (value_of_fail (bind_of_fail hprimary) (ledBy_minus.fails ?_) (ledBy_negation.fails ?_))) <;>
    rw [hlead] <;> decide

section

variable {x y : List Char} {n : Nat} (hcut : Cut x y)
include hcut

/-- What is no list of parameters in parentheses is none beyond the break, if a body follows without them. -/
theorem parametersIn_fails_beyond {c : Cursor} (hnone : parametersIn (c.append x) = .fail)
    (h : Continues parametersBare (fun _ => Continues (read .block) fun _ => follow .block) (c.append x)) :
    parametersIn (c.append y) = .fail := by
  have hlead : (c.append x).lead ∈ blockLeads := by
    by_cases hname : identifier (c.append x) = .fail
    · exact lead_of_block (h.of_done (parametersBare_of_no_name hname))
    · exact (by decide : ∀ l ∈ [Lead.letter], l ∈ blockLeads) _ (ledBy_identifier _ hname)
  have hready : (c.append x).Ready := ready_of_lead hlead (by decide)
  by_cases hopen : (c.append x).lead = .mark '('
  · have hname : identifier (c.append x) = .fail := ledBy_identifier.fails (by rw [hopen]; decide)
    have hblock := h.of_done (parametersBare_of_no_name hname)
    have hinner := parenthesized_ne_fail (statement_of_block hblock (by rw [hopen]; decide)) hopen
    refine SameAt.fails ?_ hnone
    refine (sameAt_symbol hcut hready (by decide)).bind fun _ c₁ hc₁ => ?_
    rw [parenthesized, bind_of_done hc₁] at hinner
    have hlines := continues_of_ne_fail hinner
    have hsame := (keeps_newlines (n := c₁.rest.length + 1) hcut).same c₁ (Nat.lt_succ_self _) (hlines.mono fun _ c₂ h =>
      inside_of_lead ((ledBy_read (p := .statement) Phrase.noConfusion).bind c₂ h) (by decide))
    refine hsame.bind fun _ c₂ hc₂ => ?_
    have hnames : parameterNames (c₂.append x) = .fail := by
      rwa [parametersIn, bind_of_done hc₁, bind_of_done hc₂] at hnone
    rw [SameAt, hnames, parameterNames_fail_beyond hcut (hlines.of_done hc₂) hnames]
    exact .fail
  · refine ledBy_parametersIn.fails ?_
    rw [hcut.lead_right hready]
    split
    · decide
    · simpa using hopen

theorem keeps_parameters : Keeps x y n parameters fun _ => Continues (read .block) fun _ => follow .block where
  reads := spells_parameters.readsPrefix
  same c hc h := by
    rw [parameters_eq] at h ⊢
    by_cases hread : parametersIn (c.append x) = .fail
    · have hbare := h.right hread
      refine SameAt.orElse ?_ fun _ => (keeps_parametersBare hcut).same c hc (hbare.mono fun _ _ => lead_of_block)
      rw [SameAt, hread, parametersIn_fails_beyond hcut hread hbare]
      exact .fail
    · exact ((keeps_parametersIn hcut).same c hc (h.left hread)).orElse fun hfail => absurd hfail hread

theorem keeps_definition (hn : ∀ p, Keeps x y n (read p) fun _ => follow p) {F : Term → Cursor → Prop} :
    Keeps x y (n + 1) (definition read) F := by
  refine keeps_behindKeyword hcut (by decide) ?_
  refine .andThen (keeps_identifier hcut) fun name => ?_
  refine (keeps_parameters hcut).bind
    (fun params => (hn .block).bind (fun body => keeps_ending hcut _) fun _ _ => endsBlock_of_ending) fun params c h => ?_
  exact (continues_bind.mp h).mono fun _ _ => endsBlock_of_ending

end

/-! ## Primaries -/

theorem adjacent_fails_beyond {x y : List Char} {c : Cursor} {z : Char} (hcut : Cut x y) (hz : atBreak z = false)
    (h : (c.append x).rest.head? ≠ some z) : adjacent [z] (c.append y) = .fail :=
  (sameAt_adjacent hcut (by simp [hz])).fails (adjacent_of_head_ne h)

section

variable {x y : List Char} {n : Nat} (hcut : Cut x y) (hn : ∀ p, Keeps x y n (read p) fun _ => follow p)
include hcut hn

theorem keeps_callOrName : Keeps x y (n + 1) (callWithParentheses read <|> Term.name <$> identifier)
    fun _ c => c.rest.head? ≠ some '(' where
  reads := Reads.orElse (keeps_callWithParentheses (F := fun _ _ => True) hcut hn).reads
    (readsPrefix_bind spells_identifier.readsPrefix fun _ => Reads.pure trivial)
  same c hc h := by
    have hcall := (keeps_callWithParentheses hcut hn).same (F := fun _ c => c.rest.head? ≠ some '(') c hc
    by_cases hread : callWithParentheses read (c.append x) = .fail
    · have hname := h.right hread
      have hsame := sameAt_identifier hcut (ready_of_lead (hname.lead ledBy_identifier.map) (by decide))
      refine SameAt.orElse ?_ fun _ => hsame.bind fun _ _ _ => .pure _
      -- the name is read alike, and no arguments follow it
      have hlong : callWithParentheses read (c.append y) = .fail := by
        cases hidentifier : identifier (c.append x) with
        | done function c' =>
          obtain ⟨c'', rfl, hlong⟩ := hsame.done hidentifier
          have hhead : (c''.append x).rest.head? ≠ some '(' := hname.of_done (map_of_done hidentifier)
          rw [callWithParentheses, bind_of_done hlong]
          exact bind_of_fail (adjacent_fails_beyond hcut (by decide) hhead)
        | fail => exact absurd (map_of_fail hidentifier) hname.ne_fail
        | giveUp r =>
          rw [callWithParentheses, bind_of_giveUp hidentifier] at hread
          cases hread
      rw [SameAt, hread, hlong]
      exact .fail
    · exact (hcall (h.left hread)).orElse fun hfail => absurd hfail hread

/-- A primary that no arguments follow. -/
theorem keeps_primary : Keeps x y (n + 1) (primary read) fun _ c => c.rest.head? ≠ some '(' := by
  have hliteral {p : Parser Literal} {F : Term → Cursor → Prop} (h : Keeps x y (n + 1) p fun _ _ => True) :
      Keeps x y (n + 1) (Term.lit <$> p) F := h.bind (fun _ => .pure _) fun _ _ _ => trivial
  have hword {word : String} {value : Literal} {F : Term → Cursor → Prop} (hword : word ∈ keywords) :
      Keeps x y (n + 1) (literalWord word value) F :=
    Keeps.andThen (keeps_keyword hcut hword) fun _ => .pure _
  exact (Keeps.alternative hcut (hliteral (keeps_numeral hcut)) ledBy_numeral.map
    (Keeps.alternative hcut (hliteral (keeps_stringLiteral hcut)) ledBy_stringLiteral.map
    (Keeps.alternative hcut (hword (by decide)) (ledBy_literalWord (by decide))
    (Keeps.alternative hcut (hword (by decide)) (ledBy_literalWord (by decide))
    (Keeps.alternative hcut (hword (by decide)) (ledBy_literalWord (by decide))
    (Keeps.alternative hcut (keeps_arrayLiteral hcut hn) ledBy_arrayLiteral
    (Keeps.alternative hcut (keeps_hashLiteral hcut hn) ledBy_hashLiteral
    (Keeps.alternative hcut (keeps_parenthesized hcut hn) ledBy_parenthesized
    (Keeps.alternative hcut (keeps_ifExpression hcut hn) ledBy_ifExpression
    (Keeps.alternative hcut (keeps_unlessExpression hcut hn) ledBy_unlessExpression
    (Keeps.alternative hcut (keeps_whileExpression hcut hn) ledBy_whileExpression
    (Keeps.alternative hcut (keeps_caseExpression hcut hn) ledBy_caseExpression
    (Keeps.alternative hcut (keeps_definition hcut hn) ledBy_definition
    (Keeps.alternative hcut (keeps_beginExpression hcut hn) ledBy_beginExpression
    ⟨keeps_callOrName hcut hn, ledBy_callOrName⟩
    rfl) rfl) rfl) rfl) rfl) rfl) rfl) rfl) rfl) rfl) rfl) rfl) rfl) rfl).1

end

end MinRuby.Syntax
