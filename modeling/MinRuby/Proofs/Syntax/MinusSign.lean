import MinRuby.Proofs.Syntax.Statements
import MinRuby.Proofs.Syntax.Vocabulary

/-!
# A minus sign behind a name

Where a value starts with a name and a minus sign follows, the grammar looks at what stands right behind the sign. With a
blank there it is an operator, and the value is a difference. With an operand there it is a sign, and the operand is the
argument of a command of that name, even if the name is that of a variable. Blanks before the sign change nothing. In an
expression, which is no command, the text is a difference however it is spaced.

* `NumberText`, `RightOperand` — what may stand on the right of the sign.
* `reads_difference`, `reads_command` — the two readings.
* `parseProgram_minus_behind_name` — the trees of statements and of assignments.
-/

namespace MinRuby.Syntax

open MinRuby.Text (expandTabs isBlank isDecimalDigit)
open MinRuby.Syntax.Parser

/-! ## Characters of numerals -/

namespace Parser

/-- The parser reads only characters of the given kind. -/
def ReadsOnly {α : Type} (r : Char → Bool) (p : Parser α) : Prop := Reads p fun w _ => ∀ x ∈ w, r x = true

namespace ReadsOnly

variable {α β : Type} {r : Char → Bool} {p : Parser α}

theorem pure (a : α) : ReadsOnly r (Pure.pure a : Parser α) := Reads.pure (List.forall_mem_nil _)

theorem bind {f : α → Parser β} (hp : ReadsOnly r p) (hf : ∀ a, ReadsOnly r (f a)) : ReadsOnly r (p >>= f) :=
  Reads.bind hp fun _ a hw => (hf a).mono fun _ _ hw' => List.forall_mem_append.mpr ⟨hw, hw'⟩

theorem optional (hp : ReadsOnly r p) : ReadsOnly r (optional p) := Reads.optional hp (List.forall_mem_nil _) fun _ _ h => h

theorem satisfying {q : Char → Bool} (h : ∀ x, q x = true → r x = true) : ReadsOnly r (satisfying q) :=
  (reads_satisfying q).mono fun _ a ⟨hw, ha⟩ => hw ▸ List.forall_mem_singleton.mpr (h a ha)

theorem takeWhile {q : Char → Bool} (h : ∀ x, q x = true → r x = true) : ReadsOnly r (takeWhile q) :=
  (reads_takeWhile q).mono fun _ _ ⟨hw, ha⟩ x hx => h x (ha x (hw ▸ hx))

theorem adjacent {x : Char} (h : r x = true) : ReadsOnly r (adjacent [x]) := by
  intro c a c' hread
  obtain ⟨w, hw, -⟩ := reads_adjacent [x] c a c' hread
  by_cases hhead : c.rest.head?.any (· == x) = false
  · rw [adjacent_of_head hhead] at hread
    cases hread
  · obtain ⟨y, rest, hrest⟩ : ∃ y rest, c.rest = y :: rest :=
      List.exists_cons_of_ne_nil fun hnil => hhead (by rw [hnil]; rfl)
    obtain rfl : y = x := by simpa [hrest] using hhead
    rw [adjacent_of_rest hrest] at hread
    obtain ⟨-, rfl⟩ := Reply.done.inj hread
    exact ⟨[y], hrest, List.forall_mem_singleton.mpr h⟩

theorem blanks (h : r ' ' = true) : ReadsOnly r blanks :=
  reads_of_skip (n := fun c => (c.rest.takeWhile (· == ' ')).length)
    (fun c _ c' hread => (Reply.done.inj hread).2.symm)
    fun c _ _ _ x hx => by
      have htaken := List.prefix_iff_eq_take.mp (List.takeWhile_prefix (l := c.rest) (· == ' '))
      rw [← htaken] at hx
      have hblank : (x == ' ') = true := List.mem_takeWhile_imp (p := (· == ' ')) hx
      rwa [eq_of_beq hblank]

end ReadsOnly

end Parser

/-- Whether a character can stand in a numeral, with the blanks before it. -/
def isNumeralChar (x : Char) : Bool := isDecimalDigit x || [' ', '_', '.', 'e', 'E', '+', '-'].contains x

theorem readsOnly_numeral : ReadsOnly isNumeralChar numeral := by
  have hdigit (x : Char) (hx : isDecimalDigit x = true) : isNumeralChar x = true := by rw [isNumeralChar, hx, Bool.true_or]
  have hbody (x : Char) (hx : (isDecimalDigit x || x == '_') = true) : isNumeralChar x = true := by
    rcases Bool.or_eq_true_iff.mp hx with hx | hx
    · exact hdigit x hx
    · rw [eq_of_beq hx]
      decide
  have hfraction : ReadsOnly isNumeralChar fraction :=
    (ReadsOnly.adjacent (by decide)).bind fun _ => (ReadsOnly.satisfying hdigit).bind fun _ =>
      (ReadsOnly.takeWhile hbody).bind fun _ => .pure _
  have hexponent : ReadsOnly isNumeralChar exponent := by
    refine (ReadsOnly.satisfying fun x hx => ?_).bind fun _ => (ReadsOnly.satisfying fun x hx => ?_).optional.bind fun _ =>
      (ReadsOnly.satisfying hdigit).bind fun _ => (ReadsOnly.takeWhile hdigit).bind fun _ => .pure _
    · rcases Bool.or_eq_true_iff.mp hx with hx | hx <;> rw [eq_of_beq hx] <;> decide
    · rcases Bool.or_eq_true_iff.mp hx with hx | hx <;> rw [eq_of_beq hx] <;> decide
  refine (ReadsOnly.blanks (by decide)).bind fun _ => (ReadsOnly.satisfying hdigit).bind fun _ =>
    (ReadsOnly.takeWhile hbody).bind fun _ => hfraction.optional.bind fun fraction? =>
      hexponent.optional.bind fun exponent? => ?_
  split
  · split
    · exact Reads.giveUp
    · exact .pure _
  · exact .pure _

/-! ## Operands on the right -/

/-- A number as it is written, and the literal it is read as. -/
structure NumberText where
  text : List Char
  value : Literal
  reads : ∃ c, numeral (.start text) = .done value c ∧ c.rest = []
  not_blank : text.head? ≠ some ' '

namespace NumberText

theorem exists_first (n : NumberText) : ∃ x rest, n.text = x :: rest ∧ isDecimalDigit x = true := by
  obtain ⟨c, hread, -⟩ := n.reads
  obtain ⟨x, rest, hskip, hx⟩ := exists_head numeral_of_head (by rw [hread]; exact nofun)
  obtain ⟨y, more, htext⟩ : ∃ y more, n.text = y :: more := List.exists_cons_of_ne_nil fun hnil => by
    rw [hnil, Cursor.rest_skipBlanks_of_end rfl] at hskip
    cases hskip
  have hy : y ≠ ' ' := fun heq => n.not_blank (by rw [htext, heq]; rfl)
  rw [Cursor.skipBlanks_of_ne htext hy] at hskip
  exact ⟨x, rest, hskip, hx⟩

theorem clear_text (n : NumberText) : Clear n.text := by
  obtain ⟨c, hread, hend⟩ := n.reads
  obtain ⟨w, hw, hchars⟩ := readsOnly_numeral _ _ _ hread
  have htext : n.text = w := by rw [← List.append_nil w, ← hend]; exact hw
  rw [htext]
  exact .of_not_mark (List.any_eq_false.mpr fun x hx => by
    rw [isMark_eq_false (by decide) (hchars x hx)]
    exact Bool.false_ne_true)

theorem reads_numeral (n : NumberText) {c : Cursor} (hc : c.At n.text) : ∃ c', numeral c = .done n.value c' ∧ c'.rest = [] := by
  obtain ⟨x, rest, htext, hx⟩ := n.exists_first
  have hblank : x ≠ ' ' := fun heq => n.not_blank (by rw [htext, heq]; rfl)
  have hskip : numeral c = numeral c.skipBlanks := by
    rw [numeral, bind_of_done (blanks_eq c), bind_of_done (blanks_eq c.skipBlanks),
      Cursor.skipBlanks_of_ne (hc.rest_eq.trans htext) hblank]
  have hlike : (Cursor.start n.text).Like c.skipBlanks := ⟨hc.rest_eq.symm, hc.before_eq.symm⟩
  obtain ⟨c₁, hread, hend⟩ := n.reads
  obtain ⟨c', hread', hlike'⟩ := (hereditary_respectsLike.numeral _ _ hlike).of_done hread
  exact ⟨c', hskip.trans hread', hlike'.rest ▸ hend⟩

end NumberText

/-- What may stand on the right of the sign. -/
inductive RightOperand where
  | name (x : Name)
  | number (n : NumberText)

namespace RightOperand

def text : RightOperand → List Char
  | name x => x.text
  | number n => n.text

def term : RightOperand → Term
  | name x => .name (String.ofList x.text)
  | number n => .lit n.value

variable {e : RightOperand} {c : Cursor}

theorem exists_first (e : RightOperand) : ∃ x rest, e.text = x :: rest ∧ (isDecimalDigit x || startsName x) = true := by
  cases e with
  | name x => exact ⟨x.first, _, rfl, Bool.or_eq_true_iff.mpr (.inr x.startsName_first)⟩
  | number n =>
    obtain ⟨x, rest, htext, hx⟩ := n.exists_first
    exact ⟨x, rest, htext, Bool.or_eq_true_iff.mpr (.inl hx)⟩

theorem isInk_first {x : Char} (h : (isDecimalDigit x || startsName x) = true) : IsInk x := by
  rcases Bool.or_eq_true_iff.mp h with h | h
  · exact isInk_of_isDecimalDigit h
  · exact isInk_of_isAsciiWord (isAsciiWord_of_startsName h)

theorem clear_text (e : RightOperand) : Clear e.text := by
  cases e with
  | name x => exact clear_of_inked (Formula.name x).inked_text
  | number n => exact n.clear_text

theorem starts (e : RightOperand) : Starts e.text := by
  obtain ⟨x, rest, htext, hx⟩ := e.exists_first
  have hblank := (isInk_first hx).not_blank
  refine ⟨x, rest, htext, ?_, ?_⟩
  · rintro rfl
    exact absurd hblank (by decide)
  · rintro rfl
    exact absurd hblank (by decide)

/-- The operand up to the end of the text. -/
theorem reads_indexed (hc : c.At e.text) : ∃ c', indexed read c = .done e.term c' ∧ c'.rest = [] := by
  have hprimary : ∃ c', primary read c = .done e.term c' ∧ c'.rest = [] := by
    cases e with
    | name x => exact x.reads_primary c [] (by rwa [List.append_nil]) rfl
    | number n =>
      obtain ⟨c', hread, hend⟩ := n.reads_numeral hc
      exact ⟨c', orElse_of_done (map_of_done hread), hend⟩
  obtain ⟨c', hread, hend⟩ := hprimary
  exact ⟨c', indexed_of_done hread (by rw [hend]; rfl), hend⟩

theorem reads_signed (hc : c.At e.text) : ∃ c', signed read c = .done e.term c' ∧ c'.rest = [] := by
  obtain ⟨x, rest, htext, hx⟩ := e.exists_first
  have hne {y : Char} (hy : (isDecimalDigit y || startsName y) = false) : (x == y) = false := beq_eq_false_iff_ne.mpr fun heq =>
    Bool.false_ne_true (hy.symm.trans (heq ▸ hx))
  obtain ⟨c', hread, hend⟩ := reads_indexed hc
  have hrest := hc.rest_eq.trans htext
  have hnegated : negated read c = .done e.term c' := (orElse_of_fail (negation_of_ne hrest (hne (by decide)))).trans hread
  refine ⟨c', ?_, hend⟩
  exact (orElse_of_fail (minus_of_ne hrest (hne (by decide)))).trans (power_of_done hnegated (hend ▸ .done))

end RightOperand

/-! ## The sign -/

section

variable {c c' : Cursor} {e : RightOperand} {x : Name} {before behind : Nat}

/-- What stands behind the name: blanks, the sign, blanks and the operand. -/
def signedTail (before behind : Nat) (e : RightOperand) : List Char :=
  List.replicate before ' ' ++ '-' :: (List.replicate behind ' ' ++ e.text)

theorem dropWhile_blanks (n : Nat) (text : List Char) :
    (List.replicate n ' ' ++ text).dropWhile (· == ' ') = text.dropWhile (· == ' ') :=
  List.dropWhile_append_of_pos fun x hx => by rw [List.eq_of_mem_replicate hx]; rfl

theorem rest_of_signedTail (h : c.rest = signedTail before behind e) :
    c.skipBlanks.rest = '-' :: (List.replicate behind ' ' ++ e.text) := by
  rw [Cursor.rest_skipBlanks, h, signedTail, dropWhile_blanks, List.dropWhile_cons_of_neg (by decide)]

theorem detached_signedTail (before behind : Nat) (e : RightOperand) : Detached (signedTail before behind e) := by
  cases before <;> rfl

theorem minus_of_signedTail (h : c.rest = signedTail before behind e) :
    symbol "-" c = .done () ⟨some '-', List.replicate behind ' ' ++ e.text⟩ :=
      symbol_of_rest (w := []) rfl (rest_of_signedTail h)

/-- Behind a character and blanks. -/
theorem Starts.at_behind_blanks {text : List Char} (h : Starts text) : ∀ (n : Nat) {y : Char}, joinsKeyword y = false →
    Cursor.At ⟨some y, List.replicate n ' ' ++ text⟩ text
  | 0, _, hy => h.at_behind hy
  | n + 1, _, _ =>
    have hblanks := at_behind_blanks h n (by decide : joinsKeyword ' ' = false)
    ⟨hblanks.rest_eq, hblanks.before_eq⟩

theorem at_behind_minus (behind : Nat) (e : RightOperand) : Cursor.At ⟨some '-', List.replicate behind ' ' ++ e.text⟩ e.text :=
  e.starts.at_behind_blanks behind (by decide)

/-- What stands right behind the sign is a blank or starts the operand. -/
theorem exists_behind_minus (behind : Nat) (e : RightOperand) : ∃ y more, List.replicate behind ' ' ++ e.text = y :: more ∧
    y ≠ '=' ∧ isBlank y = decide (0 < behind) := by
  cases behind with
  | zero =>
    obtain ⟨y, more, htext, hy⟩ := e.exists_first
    refine ⟨y, more, htext, ?_, (RightOperand.isInk_first hy).not_blank⟩
    rintro rfl
    exact absurd hy (by decide)
  | succ n => exact ⟨' ', List.replicate n ' ' ++ e.text, rfl, by decide,
    (by decide : isBlank ' ' = true).trans (decide_eq_true n.succ_pos).symm⟩

/-- Nothing is assigned where the sign stands. -/
theorem assigned_of_signedTail {t : Term} (h : c.rest = signedTail before behind e) :
    (assignment read t <|> compoundAssignment read t : Parser Term) c = .fail := by
  have hrest := rest_of_signedTail h
  have hoperator : compoundOperator c = .fail := compoundOperator_of_fail fun o ho => by
    rcases (by decide : ∀ o ∈ compoundOperators, o.1.toList.head?.any (· != '-') = true ∨ o.1 = "-=") o ho with hne | hminus
    · exact symbol_of_ne hrest hne
    · obtain ⟨y, more, hmore, hy, -⟩ := exists_behind_minus behind e
      refine symbol_of_not_prefix ?_
      rw [hrest, hmore, hminus]
      simpa [List.isPrefixOf] using Ne.symm hy
  exact (orElse_of_fail (bind_of_fail (symbol_of_ne hrest (by decide)))).trans (bind_of_fail hoperator)

/-- No argument starts with a sign that has a blank behind it, but one may start with a sign that has none. -/
theorem noArgument_of_signedTail (h : c.rest = signedTail before behind e) :
    if behind = 0 then noArgument c = .fail else ∃ c', noArgument c = .done () c' := by
  have hrest := rest_of_signedTail h
  obtain ⟨y, more, hmore, -, hblank⟩ := exists_behind_minus behind e
  rw [hmore] at hrest
  have hmark : satisfying (fun c => "*/%<>=&|?:,.)]\x7d".toList.contains c) c.skipBlanks = .fail :=
    satisfying_of_head (by rw [hrest]; rfl)
  have hsign := satisfying_of_rest (p := fun c => c == '-' || c == '+' || c == '!') hrest (by decide)
  rw [noArgument, bind_of_done (blanks_eq c), orElse_of_fail (bind_of_fail hmark), bind_of_done hsign]
  split
  · next hnone =>
    rw [hnone] at hblank
    exact bind_of_fail (satisfying_of_head hblank)
  · next hsome =>
    rw [decide_eq_true (Nat.pos_of_ne_zero hsome)] at hblank
    exact ⟨_, bind_of_done (satisfying_of_rest rfl hblank)⟩

/-! ## Differences -/

theorem chain_append_of_done {operand first : Parser Term} {t : Term} {tighter : List Level}
    (h : chain operand tighter first c = .done t c') (hc : Closes c'.rest) : ∀ {looser : List Level},
    (∀ level ∈ looser, ∀ o ∈ level, isForeign o.1.toList = true) → chain operand (looser ++ tighter) first c = .done t c'
  | [], _ => h
  | level :: _, ho =>
    (bind_of_done (chain_append_of_done h hc fun l hl => ho l (List.mem_cons_of_mem level hl))).trans
      (leftChain_of_fail (hc.operator_fails (ho level List.mem_cons_self)) _)

/-- A name as an operand. -/
theorem Name.reads_indexed {tail : List Char} (hc : c.At (x.text ++ tail)) (ht : Detached tail) :
    ∃ c', identifier c = .done (String.ofList x.text) c' ∧
      indexed read c = .done (.name (String.ofList x.text)) c' ∧ c'.rest = tail := by
  obtain ⟨c', hread, hrest⟩ := x.reads_identifier c tail hc ht
  have hhead {y : Char} (hy : continuesName y = true) : c'.rest.head? ≠ some y := fun heq => by
    have hnone := ht.head_ne_char hy
    rw [← hrest, heq, Option.any_some, beq_self_eq_true] at hnone
    cases hnone
  exact ⟨c', hread, indexed_of_name hread (hhead (by decide)) (hhead (by decide)), hrest⟩

/-- The name starts with no sign and no negation. -/
theorem no_sign_of_name {tail : List Char} (hc : c.At (x.text ++ tail)) : minus read c = .fail ∧ negation read c = .fail := by
  have hne {y : Char} (hy : startsName y = false) : (x.first == y) = false := beq_eq_false_iff_ne.mpr fun heq =>
    Bool.false_ne_true (hy.symm.trans (heq ▸ x.startsName_first))
  exact ⟨minus_of_ne hc.rest_eq (hne (by decide)), negation_of_ne hc.rest_eq (hne (by decide))⟩

/-- The term of the difference. -/
def difference (x : Name) (e : RightOperand) : Term := .binary (.core .sub) (.name (String.ofList x.text)) e.term

/-- As an expression the text is a difference, however it is spaced. -/
theorem reads_difference (hc : c.At (x.text ++ signedTail before behind e)) :
    ∃ c', expression read c = .done (difference x e) c' ∧ c'.rest = [] := by
  obtain ⟨c₁, -, hindexed, hrest⟩ := Name.reads_indexed hc (detached_signedTail _ _ _)
  obtain ⟨hminus, hmark⟩ := no_sign_of_name hc
  have hskip := rest_of_signedTail hrest
  have hstars : (do symbol "**"; newlines; read .signed : Parser Term) c₁ = .fail :=
  bind_of_fail (symbol_of_ne hskip (by decide))
  have hleft : signed read c = .done (.name (String.ofList x.text)) c₁ := by
    have hnegated : negated read c = .done (.name (String.ofList x.text)) c₁ := (orElse_of_fail hmark).trans hindexed
    refine (orElse_of_fail hminus).trans ?_
    rw [power, bind_of_done hnegated, bind_of_done (optional_of_fail hstars)]
    rfl
  -- the tighter operators do not start with a minus sign
  have hfactor : chain (signed read) [multiplicative] (signed read) c = .done (.name (String.ofList x.text)) c₁ := by
    have hfail : multiplicative.operator c₁ = .fail := operator_of_fail fun o ho =>
      symbol_of_ne hskip ((by decide : ∀ o ∈ multiplicative, o.1.toList.head?.any (· != '-') = true) o ho)
    exact (bind_of_done hleft).trans (leftChain_of_fail hfail _)
  have hat := at_behind_minus behind e
  obtain ⟨c₂, hright, hend⟩ := RightOperand.reads_signed hat
  have hcloses : Closes c₂.rest := hend ▸ .done
  have hoperand : chain (signed read) [multiplicative] (signed read) ⟨some '-', List.replicate behind ' ' ++ e.text⟩ =
      .done e.term c₂ := chain_of_done hright hcloses (by decide)
  have hoperator : additive.operator c₁ = .done (.core .sub) ⟨some '-', List.replicate behind ' ' ++ e.text⟩ := by
    have hspelling : spelling "-" c₁ = .done () ⟨some '-', List.replicate behind ' ' ++ e.text⟩ := minus_of_signedTail hrest
    refine orElse_of_done ((bind_of_done hspelling).trans ?_)
    rw [bind_of_done (e.starts.newlines hat)]
    rfl
  have hsum : chain (signed read) [additive, multiplicative] (signed read) c = .done (difference x e) c₂ := by
    obtain ⟨n, hn⟩ : ∃ n, c₁.rest.length = n + 1 := by
      rw [hrest, signedTail, List.length_append, List.length_cons]
      exact ⟨_, rfl⟩
    refine (bind_of_done hfactor).trans ?_
    rw [hn]
    simp only [leftChain, hoperator, hoperand]
    exact leftChain_of_fail (hcloses.operator_fails (by decide)) n
  have hquestion : (do symbol "?"; newlines : Parser Unit) c₂ = .fail := bind_of_fail (hcloses.symbol_fails (by decide))
  refine ⟨c₂, ?_, hend⟩
  rw [expression, expressionFrom, levels_eq, bind_of_done (chain_append_of_done hsum hcloses (by decide)),
    bind_of_done (optional_of_fail hquestion)]
  rfl

/-! ## Commands -/

/-- The term of the command with the negative operand as its argument. -/
def commandOfMinus (x : Name) (e : RightOperand) : Term := .call (String.ofList x.text) [.minus e.term]

/-- With an operand right behind the sign the name is a command. -/
theorem reads_command (hc : c.At (x.text ++ signedTail before 0 e)) :
    ∃ c', commandCall read c = .done (commandOfMinus x e) c' ∧ c'.rest = [] := by
  obtain ⟨c₁, hname, -, hrest⟩ := Name.reads_indexed hc (detached_signedTail _ _ _)
  have hskip := rest_of_signedTail hrest
  have hhead {y : Char} (hy : continuesName y = true) : adjacent [y] c₁ = .fail :=
    adjacent_of_head (hrest ▸ (detached_signedTail before 0 e).head_ne_char hy)
  have hword {w : String} (hw : w ∈ keywords) : keyword w c₁ = .fail := keyword_of_head (by rw [hskip]; rfl) hw
  have hmodifier : (keyword "if" <|> keyword "unless" <|> keyword "while" : Parser Unit) c₁ = .fail :=
    (orElse_of_fail (hword (by decide))).trans ((orElse_of_fail (hword (by decide))).trans (hword (by decide)))
  obtain ⟨c₂, hoperand, hend⟩ := RightOperand.reads_signed (at_behind_minus 0 e)
  have hminus : minus read c₁ = .done (.minus e.term) c₂ := by
    rw [minus, bind_of_done (minus_of_signedTail hrest), read_signed, bind_of_done hoperand]
    rfl
  have hargument : commandArgument read c₁ = .done (.minus e.term) c₂ := by
    rw [commandArgument, bind_of_done (notAhead_of_fail hmodifier), read_eq]
    exact value_of_minus hminus hend hskip
  have hcomma : (do let _ ← comma; commandArgument read : Parser Term) c₂ = .fail :=
    bind_of_fail (bind_of_fail (symbol_of_end (Cursor.rest_skipBlanks_of_end hend) (by decide)))
  have harguments : sepBy1 (commandArgument read) comma c₁ = .done [.minus e.term] c₂ := by
    rw [sepBy1, bind_of_done hargument, bind_of_done (many_of_fail hcomma)]
    rfl
  have hsome : noArgument c₁ = .fail := noArgument_of_signedTail hrest
  refine ⟨c₂, ?_, hend⟩
  rw [commandCall, bind_of_done hname, bind_of_done (notAhead_of_fail (hhead (by decide))),
    bind_of_done (notAhead_of_fail (hhead (by decide))), bind_of_done (notAhead_of_fail hsome), bind_of_done harguments]
  rfl

/-! ## Values -/

/-- The term that a value is read as. -/
def minusBehindName (x : Name) (behind : Nat) (e : RightOperand) : Term :=
  if behind = 0 then commandOfMinus x e else difference x e

theorem reads_minusBehindName (hc : c.At (x.text ++ signedTail before behind e)) :
    ∃ c', value read c = .done (minusBehindName x behind e) c' ∧ c'.rest = [] := by
  obtain ⟨c₁, hname, hindexed, hrest⟩ := Name.reads_indexed hc (detached_signedTail _ _ _)
  have hassigned := assigned_of_signedTail (t := .name (String.ofList x.text)) hrest
  unfold minusBehindName
  split
  · next hnone =>
    subst hnone
    obtain ⟨c', hread, hend⟩ := reads_command hc
    exact ⟨c', (value_of_command hindexed hassigned (by rw [hread]; exact nofun)).trans hread, hend⟩
  · next hsome =>
    have hargument := noArgument_of_signedTail hrest
    rw [if_neg hsome] at hargument
    obtain ⟨c₂, hnone⟩ := hargument
    have hcommand : commandCall read c = .fail := by
      rw [commandCall, bind_of_done hname]
      exact notAhead_bind_of_fail (.adjacent _) (notAhead_bind_of_fail (.adjacent _) (bind_of_fail (notAhead_of_done hnone)))
    obtain ⟨hminus, hmark⟩ := no_sign_of_name hc
    obtain ⟨c', hread, hend⟩ := reads_difference hc
    exact ⟨c', (value_of_operand hindexed hassigned hcommand hminus hmark).trans hread, hend⟩

/-- The value as the right-hand side of an assignment. -/
theorem reads_assignment {y : Name} {text : List Char} {t : Term} (hstarts : Starts text)
    (hvalue : ∀ c : Cursor, c.At text → ∃ c', value read c = .done t c' ∧ c'.rest = []) {c : Cursor}
    (hc : c.At (y.text ++ (" = ".toList ++ text))) :
    ∃ c', value read c = .done (.assignName (String.ofList y.text) t) c' ∧ c'.rest = [] := by
  obtain ⟨c₁, -, hindexed, hrest⟩ := Name.reads_indexed hc rfl
  have hskip : c₁.skipBlanks.rest = '=' :: ' ' :: text := by
    rw [Cursor.rest_skipBlanks, hrest]
    rfl
  have hequals : symbol "=" c₁ = .done () ⟨some '=', ' ' :: text⟩ := symbol_of_rest (w := []) rfl hskip
  have hnext : satisfying (fun c => c == '=' || c == '~' || c == '>') ⟨some '=', ' ' :: text⟩ = .fail := satisfying_of_head rfl
  have hat : Cursor.At ⟨some '=', ' ' :: text⟩ text := hstarts.at_behind_blank
  obtain ⟨c', hread, hend⟩ := hvalue _ hat
  have hassigned : assignment read (.name (String.ofList y.text)) c₁ = .done (.assignName (String.ofList y.text) t) c' := by
    rw [assignment, bind_of_done hequals, bind_of_done (notAhead_of_fail hnext),
      bind_of_done (hstarts.newlines hat), read_eq]
    exact bind_of_done hread
  have hread := orElse_of_done (q := compoundAssignment read (.name (String.ofList y.text))) hassigned
  exact ⟨c', (value_of_assigned hindexed fun hfail => by cases hread.symm.trans hfail).trans hread, hend⟩

end

/-! ## Programs -/

theorem Starts.at_start {text : List Char} (h : Starts text) : (Cursor.start text).At text := by
  obtain ⟨x, rest, htext, hblank, -⟩ := h
  have hskip : (Cursor.start text).skipBlanks = Cursor.start text := Cursor.skipBlanks_of_ne htext hblank
  exact ⟨by rw [hskip]; rfl, by rw [hskip]; rfl⟩

/-- A clear text that is read as a value is a program of one statement. -/
theorem readProgram_of_value {text : List Char} {t : Term} (hclear : Clear text) (hstarts : Starts text)
    (hmark : text.head? ≠ some ';') (hvalue : ∀ c : Cursor, c.At text → ∃ c', value read c = .done t c' ∧ c'.rest = [])
    (filename : String) : readProgram (String.ofList text) filename = .ok (.block [t]) := by
  have hat := hstarts.at_start
  obtain ⟨c', hread, hend⟩ := hvalue _ hat
  have hseparator : separator (Cursor.start text) = .fail := by
    obtain ⟨x, rest, htext, -, hline⟩ := hstarts
    exact separator_of_ne (hat.rest_eq.trans htext) ⟨hline, fun hx => hmark (by rw [htext, hx]; rfl)⟩
  have hblock : parsePhrase .block text = .done (.block [t]) c' := by
    rw [parsePhrase_eq_read, read_eq]
    exact block_of_value hread hend hseparator
  have hbehind := Cursor.rest_skipBlanks_of_end hend
  rw [readProgram, String.toList_ofList, hclear.prepare_eq, readWhole, expandTabs_of_not_mem (hclear.not_mem (by decide))]
  simp only [hblock, hbehind]

theorem Name.clear_text (x : Name) : Clear x.text := clear_of_inked (Formula.name x).inked_text

theorem Name.starts (x : Name) : Starts x.text := (Formula.name x).inked_text.starts

theorem clear_blanks (n : Nat) : Clear (List.replicate n ' ') :=
  .of_not_mark (List.any_eq_false.mpr fun y hy => by rw [List.eq_of_mem_replicate hy]; decide)

theorem clear_signedTail (before behind : Nat) (e : RightOperand) : Clear (signedTail before behind e) :=
  (clear_blanks before).append (.cons (by decide) ((clear_blanks behind).append e.clear_text))

/-- A program that starts with a name. -/
theorem readProgram_of_name {x : Name} {tail : List Char} {t : Term} (hclear : Clear tail)
    (hvalue : ∀ c : Cursor, c.At (x.text ++ tail) → ∃ c', value read c = .done t c' ∧ c'.rest = []) (filename : String) :
    readProgram (String.ofList (x.text ++ tail)) filename = .ok (.block [t]) := by
  have hmark : (x.text ++ tail).head? ≠ some ';' := fun heq => by
    have hfirst : x.first = ';' := Option.some.inj heq
    exact absurd x.startsName_first (by rw [hfirst]; decide)
  exact readProgram_of_value (x.clear_text.append hclear) (x.starts.append tail) hmark hvalue filename

/-! ## Trees -/

/-- The tree of a name where the given names are known. -/
def Node.reference (known : List String) (x : String) : Node := if x ∈ known then .varRef x else .funcCall x []

/-- The tree of the operand where the given names are known. -/
def RightOperand.node (known : List String) : RightOperand → Node
  | name x => .reference known (String.ofList x.text)
  | number n => .lit n.value.toData

/-- The tree of the value where the given names are known. -/
def minusTree (known : List String) (x : Name) (behind : Nat) (e : RightOperand) : Node :=
  if behind = 0 then .funcCall (String.ofList x.text) [(e.node known).negative]
  else .binary .sub (.reference known (String.ofList x.text)) (e.node known)

/-- The negative of the operand has its names resolved as the operand has. -/
theorem resolve_negative (known : List String) (e : RightOperand) (counter : Nat) :
    ((e.term.desugar.run counter).1.negative.resolve.run known).1 = (e.node known).negative := by
  cases e with
  | name z =>
    have hname : (Node.reference known (String.ofList z.text)).negative =
        .binary .sub (.lit (.int 0)) (.reference known (String.ofList z.text)) := by
      unfold Node.reference
      split <;> rfl
    rw [RightOperand.node, hname]
    rfl
  | number n =>
    obtain ⟨text, value, reads, -⟩ := n
    cases value <;> rfl

/-- The term of the value in the core language, and with its names resolved. -/
theorem desugar_minusBehindName (known : List String) (x : Name) (behind : Nat) (e : RightOperand) (counter : Nat) :
    ∃ n, (minusBehindName x behind e).desugar.run counter = (n, counter) ∧
      (n.resolve.run known).1 = minusTree known x behind e := by
  unfold minusBehindName minusTree
  split
  · rw [← resolve_negative known e counter]
    refine ⟨.funcCall (String.ofList x.text) [(e.term.desugar.run counter).1.negative], ?_, rfl⟩
    cases e <;> rfl
  · cases e <;> exact ⟨_, rfl, rfl⟩

/-- A program that is read as one statement. -/
theorem parseProgram_of_statement {source filename : String} {counter : Nat} {t : Term} {n : Node}
    (hread : readProgram source filename = .ok (.block [t])) (hdesugar : t.desugar.run counter = (n, counter))
    (known : List String) : parseProgram source filename known counter = .ok (.stmts [(n.resolve.run known).1], counter) := by
  have hblock : (Term.block [t]).desugar.run counter = (.stmts [(t.desugar.run counter).1], (t.desugar.run counter).2) := rfl
  rw [parseProgram_of_readProgram hread, hblock, hdesugar]
  rfl

/-- A name with a minus sign and an operand behind it, as a statement, as a value that is assigned, and as an expression. -/
theorem parseProgram_minus_behind_name (x y : Name) (e : RightOperand) (before behind : Nat) (filename : String)
    (known : List String) (counter : Nat) :
    let text := x.text ++ signedTail before behind e
    parseProgram (String.ofList text) filename known counter = .ok (.stmts [minusTree known x behind e], counter) ∧
    parseProgram (String.ofList (y.text ++ (" = ".toList ++ text))) filename known counter =
      .ok (.stmts [.varAssign (String.ofList y.text) (minusTree known x behind e)], counter) ∧
    ∃ c, parsePhrase .expression text = .done (difference x e) c ∧ c.rest = [] := by
  intro text
  have hvalue (c : Cursor) (hc : c.At text) : ∃ c', value read c = .done (minusBehindName x behind e) c' ∧ c'.rest = [] :=
    reads_minusBehindName hc
  have htail : Clear (signedTail before behind e) := clear_signedTail before behind e
  have hstarts : Starts text := x.starts.append _
  obtain ⟨n, hdesugar, hresolve⟩ := desugar_minusBehindName known x behind e counter
  rw [← hresolve]
  refine ⟨parseProgram_of_statement (readProgram_of_name htail hvalue filename) hdesugar known, ?_, ?_⟩
  · have hequals : Clear (" = ".toList ++ text) := Clear.append (.of_not_mark (by decide)) (x.clear_text.append htail)
    have hread := readProgram_of_name (x := y) hequals (fun c hc => reads_assignment hstarts hvalue hc) filename
    have hassign : (Term.assignName (String.ofList y.text) (minusBehindName x behind e)).desugar.run counter =
        (.varAssign (String.ofList y.text) n, counter) := by
      show (Node.varAssign (String.ofList y.text) ((minusBehindName x behind e).desugar.run counter).1,
        ((minusBehindName x behind e).desugar.run counter).2) = _
      rw [hdesugar]
    exact parseProgram_of_statement hread hassign known
  · obtain ⟨c, hread, hend⟩ := reads_difference hstarts.at_start
    exact ⟨c, by rw [parsePhrase_eq_read, read_eq]; exact hread, hend⟩

/-- Where `x` is a variable, its difference from one is a command if it is written without blanks. -/
theorem unspaced_minus_read_as_command :
    parseProgram "y = x-1" anonymous ["x"] 1 = .ok (.stmts [.varAssign "y" (.funcCall "x" [.lit (.int (-1))])], 1) ∧
    parseProgram "y = x - 1" anonymous ["x"] 1 = .ok (.stmts [.varAssign "y" (.binary .sub (.varRef "x") (.lit (.int 1)))], 1) := by
  have hcommand : readProgram "y = x-1" anonymous = .ok (.block [.assignName "y" (.call "x" [.minus (.lit (.int 1))])]) := rfl
  have hdifference : readProgram "y = x - 1" anonymous =
      .ok (.block [.assignName "y" (.binary (.core .sub) (.name "x") (.lit (.int 1)))]) := rfl
  exact ⟨parseProgram_of_readProgram hcommand, parseProgram_of_readProgram hdifference⟩

end MinRuby.Syntax
