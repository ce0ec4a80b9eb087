import MinRuby.Proofs.Syntax.Reading
import MinRuby.Syntax.Grammar

/-!
# Where a parser succeeds

The outcome of a parser at one cursor, from the outcomes of its parts: `bind_of_done` and its companions for
the combinators, then the tokens and the operators. What may follow a literal inside another one is `Closes`;
there every operator fails, so that an operand is a whole expression.

* `expressionFrom_of_done` — an operand with a closing text behind it is an expression.
-/

namespace MinRuby.Syntax

namespace Parser

variable {α β : Type} {p q : Parser α} {f : α → Parser β} {a : α} {c c' : Cursor}

/-! ## Combinators -/

theorem bind_of_done (h : p c = .done a c') : (p >>= f) c = f a c' := by
  show Parser.bind p f c = _
  rw [Parser.bind, h]

theorem bind_of_fail (h : p c = .fail) : (p >>= f) c = .fail := by
  show Parser.bind p f c = _
  rw [Parser.bind, h]

theorem map_of_done {f : α → β} (h : p c = .done a c') : (f <$> p) c = .done (f a) c' := by
  show Parser.bind p (fun x => Parser.pure (f x)) c = _
  rw [Parser.bind, h]
  rfl

theorem map_of_fail {f : α → β} (h : p c = .fail) : (f <$> p) c = .fail := by
  show Parser.bind p (fun x => Parser.pure (f x)) c = _
  rw [Parser.bind, h]

theorem map_of_giveUp {f : α → β} {r : Surrender} (h : p c = .giveUp r) : (f <$> p) c = .giveUp r := by
  show Parser.bind p (fun x => Parser.pure (f x)) c = _
  rw [Parser.bind, h]

theorem orElse_of_done (h : p c = .done a c') : (p <|> q) c = .done a c' := by
  show Parser.orElse p (fun _ => q) c = _
  rw [Parser.orElse, h]

theorem orElse_of_fail (h : p c = .fail) : (p <|> q) c = q c := by
  show Parser.orElse p (fun _ => q) c = _
  rw [Parser.orElse, h]

theorem bind_of_giveUp {r : Surrender} (h : p c = .giveUp r) : (p >>= f) c = .giveUp r := by
  show Parser.bind p f c = _
  rw [Parser.bind, h]

theorem orElse_of_giveUp {r : Surrender} (h : p c = .giveUp r) : (p <|> q) c = .giveUp r := by
  show Parser.orElse p (fun _ => q) c = _
  rw [Parser.orElse, h]

theorem fail_of_orElse (h : (p <|> q) c = .fail) : p c = .fail ∧ q c = .fail := by
  cases hp : p c with
  | done a c' =>
    rw [orElse_of_done hp] at h
    cases h
  | fail => exact ⟨rfl, (orElse_of_fail hp).symm.trans h⟩
  | giveUp r =>
    rw [orElse_of_giveUp hp] at h
    cases h

theorem bind_congr {p' : Parser α} (h : p c = p' c') : (p >>= f) c = (p' >>= f) c' := by
  show Parser.bind p f c = Parser.bind p' f c'
  rw [Parser.bind, Parser.bind, h]

theorem orElse_congr {q' : Parser α} (h : q c = q' c) : (p <|> q) c = (p <|> q') c := by
  show Parser.orElse p (fun _ => q) c = Parser.orElse p (fun _ => q') c
  rw [Parser.orElse, Parser.orElse, h]

theorem optional_of_done (h : p c = .done a c') : optional p c = .done (some a) c' := by
  rw [optional, h]

theorem optional_of_fail (h : p c = .fail) : optional p c = .done none c := by
  rw [optional, h]

theorem notAhead_of_done (h : p c = .done a c') : notAhead p c = .fail := by
  rw [notAhead, h]

theorem notAhead_of_fail (h : p c = .fail) : notAhead p c = .done () c := by
  rw [notAhead, h]

theorem upTo_of_fail (h : p c = .fail) (n : Nat) : upTo p n c = .done [] c := by
  cases n with
  | zero => rfl
  | succ n => simp only [upTo, h]

theorem many_of_fail (h : p c = .fail) : many p c = .done [] c := upTo_of_fail h _

/-- A round and those that follow it. -/
theorem upTo_of_done {a : α} {c' : Cursor} (h : p c = .done a c') (k : Nat) :
    upTo p (k + 1) c = (do return a :: (← upTo p k) : Parser (List α)) c' := by
  simp only [upTo, h]
  cases hmore : upTo p k c' with
  | done as c'' => exact (bind_of_done (f := fun as => Pure.pure (a :: as)) hmore).symm
  | fail => exact (bind_of_fail hmore).symm
  | giveUp r => exact (bind_of_giveUp hmore).symm

end Parser

open MinRuby.Syntax.Parser

/-! ## Tokens -/

namespace Cursor

variable {c : Cursor}

theorem rest_skipBlanks (c : Cursor) : c.skipBlanks.rest = c.rest.dropWhile (· == ' ') := by
  obtain ⟨b, text⟩ := c
  rw [skipBlanks, rest_skip]
  induction text with
  | nil => rfl
  | cons x rest ih =>
    by_cases hx : (x == ' ') = true
    · simpa [hx] using ih
    · simp [hx]

theorem rest_skipBlanks_of_end (h : c.rest = []) : c.skipBlanks.rest = [] := by
  rw [rest_skipBlanks, h, List.dropWhile_nil]

/-- There are no blanks to be skipped. -/
theorem skipBlanks_of_ne {x : Char} {rest : List Char} (h : c.rest = x :: rest) (hx : x ≠ ' ') : c.skipBlanks = c := by
  have hstop : (x == ' ') = false := by simpa using hx
  rw [skipBlanks, h, List.takeWhile_cons, hstop, if_neg Bool.false_ne_true]
  rfl

/-- Behind characters of which the last one is known. -/
theorem skip_of_rest {w : List Char} {x : Char} {tail : List Char} (h : c.rest = w ++ x :: tail) :
    c.skip (w.length + 1) = ⟨some x, tail⟩ := by
  induction w generalizing c with
  | nil => rw [List.length_nil, Cursor.skip, Cursor.skip, Cursor.advance, h]; rfl
  | cons y w ih =>
    rw [List.length_cons, Cursor.skip]
    refine ih ?_
    rw [rest_advance, h]
    rfl

end Cursor

section

variable {c c' : Cursor} {o word : String} {x y : Char} {rest tail : List Char}

theorem symbol_eq (o : String) (c : Cursor) : symbol o c =
    if o.toList.isPrefixOf c.skipBlanks.rest then .done () (c.skipBlanks.skip o.toList.length) else .fail := rfl

theorem symbol_of_not_prefix (h : o.toList.isPrefixOf c.skipBlanks.rest = false) : symbol o c = .fail := by
  rw [symbol_eq, h, if_neg Bool.false_ne_true]

/-- A symbol of which the last character is `x`. -/
theorem symbol_of_rest {w : List Char} (ho : o.toList = w ++ [x]) (h : c.skipBlanks.rest = o.toList ++ tail) :
    symbol o c = .done () ⟨some x, tail⟩ := by
  have hprefix : o.toList.isPrefixOf c.skipBlanks.rest = true := by
    rw [h]
    exact List.isPrefixOf_iff_prefix.mpr (List.prefix_append _ _)
  rw [symbol_eq, if_pos hprefix, ho, List.length_append]
  exact congrArg (Reply.done ()) (Cursor.skip_of_rest (by rw [h, ho, List.append_assoc]; rfl))

/-- A word that starts with another character than the text. -/
theorem not_prefix_of_ne {w : List Char} (hw : w.head?.any (· != x) = true) : w.isPrefixOf (x :: rest) = false := by
  cases w with
  | nil => cases hw
  | cons y more =>
    have hne : (y == x) = false := by simpa [bne] using hw
    rw [List.isPrefixOf, hne, Bool.false_and]

theorem not_prefix_of_end {w : List Char} (hw : w.isEmpty = false) : w.isPrefixOf [] = false := by
  cases w with
  | nil => cases hw
  | cons y more => rfl

theorem symbol_of_ne (h : c.skipBlanks.rest = x :: rest) (ho : o.toList.head?.any (· != x) = true) :
    symbol o c = .fail :=
  symbol_of_not_prefix (h ▸ not_prefix_of_ne ho)

theorem symbol_of_end (h : c.skipBlanks.rest = []) (ho : o.toList.isEmpty = false) : symbol o c = .fail :=
  symbol_of_not_prefix (h ▸ not_prefix_of_end ho)

/-- A symbol whose first character does not stand there. -/
theorem symbol_of_head {more : List Char} (ho : o.toList = x :: more) (h : c.skipBlanks.rest.head?.any (· == x) = false) :
    symbol o c = .fail := by
  cases hrest : c.skipBlanks.rest with
  | nil => exact symbol_of_end hrest (by rw [ho]; rfl)
  | cons y rest =>
    have hne : (y == x) = false := by simpa [hrest] using h
    refine symbol_of_ne hrest ?_
    rw [BEq.comm] at hne
    simp [ho, bne, hne]

theorem blanks_eq (c : Cursor) : blanks c = .done () c.skipBlanks := rfl

theorem keyword_eq (word : String) (c : Cursor) : keyword word c =
    if word.toList.isPrefixOf c.skipBlanks.rest && !c.skipBlanks.before.any joinsKeyword &&
        !(c.skipBlanks.rest.drop word.toList.length).head?.any joinsKeyword then
      .done () (c.skipBlanks.skip word.toList.length)
    else .fail := rfl

theorem keyword_of_not_prefix (h : word.toList.isPrefixOf c.skipBlanks.rest = false) : keyword word c = .fail := by
  rw [keyword_eq, h]
  rfl

theorem keyword_of_ne (h : c.skipBlanks.rest = x :: rest) (hword : word.toList.head?.any (· != x) = true) :
    keyword word c = .fail :=
  keyword_of_not_prefix (h ▸ not_prefix_of_ne hword)

theorem keyword_of_end (h : c.skipBlanks.rest = []) (hword : word.toList.isEmpty = false) : keyword word c = .fail :=
  keyword_of_not_prefix (h ▸ not_prefix_of_end hword)

/-- A keyword that nothing touches. -/
theorem keyword_of_rest (h : c.skipBlanks.rest = word.toList ++ tail)
    (hb : c.skipBlanks.before.any joinsKeyword = false) (ht : tail.head?.any joinsKeyword = false) :
    ∃ c', keyword word c = .done () c' ∧ c'.rest = tail := by
  have hprefix : word.toList.isPrefixOf c.skipBlanks.rest = true := by
    rw [h]
    exact List.isPrefixOf_iff_prefix.mpr (List.prefix_append _ _)
  have hdrop : c.skipBlanks.rest.drop word.toList.length = tail := by rw [h, List.drop_left]
  refine ⟨c.skipBlanks.skip word.toList.length, ?_, by rw [Cursor.rest_skip, hdrop]⟩
  rw [keyword_eq, hprefix, hb, hdrop, ht]
  rfl

theorem adjacent_of_rest (h : c.rest = x :: rest) : adjacent [x] c = .done () ⟨some x, rest⟩ := by
  have hprefix : [x].isPrefixOf c.rest = true := by rw [h, List.isPrefixOf, beq_self_eq_true, List.isPrefixOf, Bool.and_self]
  rw [adjacent, if_pos hprefix]
  exact congrArg (Reply.done ()) (Cursor.skip_of_rest (w := []) h)

theorem adjacent_of_head (h : c.rest.head?.any (· == x) = false) : adjacent [x] c = .fail := by
  have hprefix : [x].isPrefixOf c.rest = false := by
    cases hrest : c.rest with
    | nil => rfl
    | cons y rest =>
      have hne : (y == x) = false := by simpa [hrest] using h
      rw [List.isPrefixOf, BEq.comm, hne, Bool.false_and]
  rw [adjacent, hprefix, if_neg Bool.false_ne_true]

theorem satisfying_eq (p : Char → Bool) (c : Cursor) : satisfying p c =
    match c.rest with
    | x :: _ => if p x then .done x c.advance else .fail
    | [] => .fail := rfl

theorem satisfying_of_rest {p : Char → Bool} (h : c.rest = x :: rest) (hp : p x = true) :
    satisfying p c = .done x ⟨some x, rest⟩ := by
  rw [satisfying_eq, Cursor.advance, h]
  simp only [hp, if_true]

theorem satisfying_of_head {p : Char → Bool} (h : c.rest.head?.any p = false) : satisfying p c = .fail := by
  rw [satisfying_eq]
  cases hrest : c.rest with
  | nil => rfl
  | cons y rest =>
    have hp : p y = false := by simpa [hrest] using h
    simp only [hp, Bool.false_eq_true, if_false]

theorem takeWhile_of_rest {p : Char → Bool} {w : List Char} (h : c.rest = w ++ tail) (hw : ∀ x ∈ w, p x = true)
    (ht : tail.head?.any p = false) : ∃ c', takeWhile p c = .done w c' ∧ c'.rest = tail := by
  have htail : tail.takeWhile p = [] := by
    cases tail with
    | nil => rfl
    | cons y rest => rw [List.takeWhile_cons, if_neg (by simpa using ht)]
  have htaken : c.rest.takeWhile p = w := by
    rw [h, List.takeWhile_append_of_pos hw, htail, List.append_nil]
  refine ⟨c.skip w.length, ?_, by rw [Cursor.rest_skip, h, List.drop_left]⟩
  rw [takeWhile, htaken]

theorem newlines_of_ne (h : c.skipBlanks.rest = x :: rest) (hx : x ≠ '\n') : newlines c = .done () c := by
  have hfail : symbol "\n" c = .fail := symbol_of_ne h (by simpa using Ne.symm hx)
  rw [newlines, bind_of_done (many_of_fail hfail)]
  rfl

end

/-! ## What neither fails nor gives up -/

namespace Parser

variable {α β : Type} {p q : Parser α} {f : α → Parser β}

theorem upTo_ne_fail (p : Parser α) (n : Nat) (c : Cursor) : upTo p n c ≠ .fail := by
  induction n generalizing c with
  | zero => exact nofun
  | succ n ih =>
    simp only [upTo]
    split
    · next c' _ =>
      have hrest := ih c'
      split
      · rintro ⟨⟩
      · next h => exact absurd h hrest
      · rintro ⟨⟩
    · rintro ⟨⟩
    · rintro ⟨⟩

theorem bind_ne_fail (hp : ∀ c, p c ≠ .fail) (hf : ∀ a c, f a c ≠ .fail) (c : Cursor) : (p >>= f) c ≠ .fail := by
  show Parser.bind p f c ≠ _
  unfold Parser.bind
  split
  · exact hf _ _
  · next h => exact absurd h (hp c)
  · exact nofun

/-- Where nothing behind a parser fails, it is the parser itself that has failed. -/
theorem fail_of_bind (hf : ∀ a c, f a c ≠ .fail) {c : Cursor} (h : (p >>= f) c = .fail) : p c = .fail := by
  cases hp : p c with
  | done a c' =>
    rw [bind_of_done hp] at h
    exact absurd h (hf a c')
  | fail => rfl
  | giveUp r =>
    rw [bind_of_giveUp hp] at h
    cases h

/-- What has failed fails with more behind it, too. -/
theorem bind_bind_of_fail {γ : Type} {g : α → β → Parser γ} {c : Cursor} (h : (p >>= f) c = .fail) :
    (p >>= fun a => f a >>= g a) c = .fail := by
  cases hp : p c with
  | done a c' =>
    rw [bind_of_done hp] at h ⊢
    exact bind_of_fail h
  | fail => exact bind_of_fail hp
  | giveUp r =>
    rw [bind_of_giveUp hp] at h
    cases h

theorem pure_ne_fail (a : α) (c : Cursor) : (Pure.pure a : Parser α) c ≠ .fail := nofun

theorem optional_ne_fail (p : Parser α) (c : Cursor) : optional p c ≠ .fail := by
  unfold optional
  split <;> exact nofun

/-- Items are read wherever the first one is. -/
theorem fail_of_sepBy1 {s : Parser β} {c : Cursor} (h : sepBy1 p s c = .fail) : p c = .fail :=
  fail_of_bind (fun _ => bind_ne_fail (fun c => upTo_ne_fail _ _ c) fun _ => pure_ne_fail _) h

theorem newlines_ne_fail : ∀ c, newlines c ≠ .fail :=
  bind_ne_fail (fun c => upTo_ne_fail _ _ c) fun _ => pure_ne_fail ()

theorem separators_ne_fail : ∀ c, separators c ≠ .fail :=
  bind_ne_fail (fun c => upTo_ne_fail separator _ c) fun _ => pure_ne_fail ()

theorem block_ne_fail (nested : Phrase → Parser Term) : ∀ c, block nested c ≠ .fail :=
  bind_ne_fail separators_ne_fail fun _ => bind_ne_fail (optional_ne_fail _) fun _ =>
    bind_ne_fail separators_ne_fail fun _ => pure_ne_fail _

/-- The parser does not give up anywhere. -/
def Persists (p : Parser α) : Prop := ∀ c r, p c ≠ .giveUp r

namespace Persists

theorem pure (a : α) : Persists (Pure.pure a : Parser α) := fun _ _ => nofun

theorem bind (hp : Persists p) (hf : ∀ a, Persists (f a)) : Persists (p >>= f) := by
  intro c r h
  cases hread : p c with
  | done a c' => exact hf a c' r ((bind_of_done hread).symm.trans h)
  | fail =>
    rw [bind_of_fail hread] at h
    cases h
  | giveUp r' => exact hp c r' hread

theorem orElse (hp : Persists p) (hq : Persists q) : Persists (p <|> q) := by
  intro c r h
  cases hread : p c with
  | done a c' =>
    rw [orElse_of_done hread] at h
    cases h
  | fail => exact hq c r ((orElse_of_fail hread).symm.trans h)
  | giveUp r' => exact hp c r' hread

theorem optional (hp : Persists p) : Persists (optional p) := by
  intro c r h
  unfold Parser.optional at h
  split at h
  · cases h
  · cases h
  · next hread => exact hp c _ hread

theorem notAhead (hp : Persists p) : Persists (notAhead p) := by
  intro c r h
  unfold Parser.notAhead at h
  split at h
  · cases h
  · cases h
  · next hread => exact hp c _ hread

theorem upTo (hp : Persists p) : ∀ k, Persists (upTo p k)
  | 0 => by
    intro c r h
    cases h
  | k + 1 => by
    intro c r h
    cases hread : p c with
    | done a c' =>
      rw [upTo_of_done hread] at h
      exact (upTo hp k).bind (fun _ => pure _) c' r h
    | fail =>
      rw [upTo_of_fail hread] at h
      cases h
    | giveUp r' => exact hp c r' hread

theorem many (hp : Persists p) : Persists (many p) := fun c => upTo hp c.rest.length c

theorem adjacent (text : List Char) : Persists (adjacent text) := by
  intro c r h
  unfold Parser.adjacent at h
  split at h <;> cases h

theorem satisfying (p : Char → Bool) : Persists (satisfying p) := by
  intro c r h
  rw [satisfying_eq] at h
  split at h
  · split at h <;> cases h
  · cases h

theorem symbol (o : String) : Persists (symbol o) := fun c => adjacent o.toList c.skipBlanks

theorem keyword (word : String) : Persists (keyword word) := by
  intro c r h
  rw [keyword_eq] at h
  split at h <;> cases h

end Persists

end Parser

/-! ## Operators -/

/-- An operator whose spelling does not stand there is passed over. -/
theorem operator_cons_of_fail {c : Cursor} {o : String × Connective} {level : Level} (h : symbol o.1 c = .fail) :
    Level.operator (o :: level) c = level.operator c := by
  have hspelling : spelling o.1 c = .fail := by
    unfold spelling
    split
    · exact bind_of_fail h
    · exact h
  exact orElse_of_fail (bind_of_fail hspelling)

/-- No operator of a level stands where none of its spellings does. -/
theorem operator_of_fail {c : Cursor} : ∀ {level : Level}, (∀ o ∈ level, symbol o.1 c = .fail) → level.operator c = .fail
  | [], _ => rfl
  | o :: _, h =>
    (operator_cons_of_fail (h o List.mem_cons_self)).trans
      (operator_of_fail fun o' ho' => h o' (List.mem_cons_of_mem o ho'))

/-! ## What closes an operand -/

/-- The texts that may follow a literal inside another one, or at the end. -/
inductive Closes : List Char → Prop where
  | done : Closes []
  | comma (rest : List Char) : Closes (',' :: rest)
  | bracket (rest : List Char) : Closes (']' :: rest)
  | brace (rest : List Char) : Closes ('\x7d' :: rest)
  | arrow (rest : List Char) : Closes (' ' :: '=' :: '>' :: rest)

/-- Whether no closing text starts with it, blanks apart. -/
def isForeign : List Char → Bool
  | [] => false
  | '=' :: y :: _ => y != '>'
  | x :: _ => x != ',' && x != ']' && x != '\x7d' && x != '='

namespace Closes

variable {c : Cursor} {o : String}

theorem not_prefix {o tail : List Char} (h : Closes tail) (ho : isForeign o = true) :
    o.isPrefixOf (tail.dropWhile (· == ' ')) = false := by
  unfold isForeign at ho
  split at ho
  · cases ho
  · next y more =>
    have hy : (y == '>') = false := by simpa using ho
    cases h <;> simp [List.isPrefixOf, hy]
  · next x more _ =>
    simp only [Bool.and_eq_true, bne_iff_ne] at ho
    obtain ⟨⟨⟨hcomma, hbracket⟩, hbrace⟩, hequals⟩ := ho
    cases h <;> simp [List.isPrefixOf, hcomma, hbracket, hbrace, hequals]

theorem symbol_fails (h : Closes c.rest) (ho : isForeign o.toList = true) : symbol o c = .fail := by
  refine symbol_of_not_prefix ?_
  rw [Cursor.rest_skipBlanks]
  exact h.not_prefix ho

/-- The text has no character in front that could continue a word or a numeral, and none that starts an index. -/
theorem head_ne {tail : List Char} (h : Closes tail) {p : Char → Bool}
    (hp : p ',' = false ∧ p ']' = false ∧ p '\x7d' = false ∧ p ' ' = false) : tail.head?.any p = false := by
  obtain ⟨hcomma, hbracket, hbrace, hblank⟩ := hp
  cases h <;> simp [*]

theorem operator_fails (h : Closes c.rest) {level : Level} (ho : ∀ o ∈ level, isForeign o.1.toList = true) :
    level.operator c = .fail :=
  operator_of_fail fun o hmem => h.symbol_fails (ho o hmem)

end Closes

theorem isForeign_of_mem_levels : ∀ level ∈ levels, ∀ o ∈ level, isForeign o.1.toList = true := by
  decide

/-! ## Operands -/

section

variable {nested : Phrase → Parser Term} {operand first : Parser Term} {t : Term} {c c' : Cursor}

theorem leftChain_of_fail {operator : Parser Connective} (h : operator c = .fail) (n : Nat) :
    leftChain operator operand n t c = .done t c := by
  cases n with
  | zero => rfl
  | succ n => simp only [leftChain, h]

/-- An operand with a closing text behind it is the whole chain. -/
theorem chain_of_done (h : first c = .done t c') (hc : Closes c'.rest) : ∀ {ls : List Level},
    (∀ level ∈ ls, ∀ o ∈ level, isForeign o.1.toList = true) → chain operand ls first c = .done t c'
  | [], _ => h
  | level :: tighter, ho => by
    have htighter := chain_of_done h hc fun l hl => ho l (List.mem_cons_of_mem level hl)
    rw [chain]
    exact (bind_of_done htighter).trans (leftChain_of_fail (hc.operator_fails (ho level List.mem_cons_self)) _)

/-- An operand with a closing text behind it is the whole expression. -/
theorem expressionFrom_of_done (h : first c = .done t c') (hc : Closes c'.rest) :
    expressionFrom nested first c = .done t c' := by
  have hquestion : (do symbol "?"; newlines : Parser Unit) c' = .fail := bind_of_fail (hc.symbol_fails (by decide))
  rw [expressionFrom, bind_of_done (chain_of_done h hc isForeign_of_mem_levels), bind_of_done (optional_of_fail hquestion)]
  rfl

/-- An operand with a closing text behind it has no exponent. -/
theorem power_of_done (h : first c = .done t c') (hc : Closes c'.rest) : power nested first c = .done t c' := by
  have hstars : (do symbol "**"; newlines; nested .signed : Parser Term) c' = .fail :=
    bind_of_fail (hc.symbol_fails (by decide))
  rw [power, bind_of_done h, bind_of_done (optional_of_fail hstars)]
  rfl

/-- An operand with no bracket right behind it has no index. -/
theorem indexed_of_done (h : primary nested c = .done t c') (hc : c'.rest.head?.any (· == '[') = false) :
    indexed nested c = .done t c' := by
  have hindex : indexing nested c' = .fail := bind_of_fail (adjacent_of_head hc)
  rw [indexed, bind_of_done h, bind_of_done (many_of_fail hindex)]
  rfl

end

end MinRuby.Syntax
