import MinRuby.Proofs.Syntax.Following

/-!
# Commands, assignments and differences

What stands behind a name tells whether it is a command, the target of an assignment, or the first operand of an
expression. Of two of these readings one always fails, so a grammar that tries them in another order would read the same
texts.

* `expressionFrom_at_mark` — no expression goes on where an assignment does.
* `argument_of_difference` — what can be subtracted is an argument, if no blank is behind the sign.
-/

namespace MinRuby.Syntax

open MinRuby.Text (isBlank)
open MinRuby.Syntax.Parser

/-! ## Arguments -/

/-- What an argument of a command starts with. -/
def argumentLeads : List Lead :=
  valueLeads.filter fun l => l ∉ [Lead.word "if", .word "unless", .word "while"]

theorem notAhead_bind_ne_fail {α β : Type} {p : Parser α} {q : Parser β} {c : Cursor} (h : (do notAhead p; q) c ≠ .fail)
    (hp : Persists p) : p c = .fail ∧ q c ≠ .fail := by
  cases hread : p c with
  | done a c' => exact absurd (bind_of_fail (notAhead_of_done hread)) h
  | fail => exact ⟨rfl, by rwa [bind_of_done (notAhead_of_fail hread)] at h⟩
  | giveUp r => exact absurd hread (hp c r)

theorem persists_modifierWord : Persists (keyword "if" <|> keyword "unless" <|> keyword "while") :=
  (Persists.keyword _).orElse ((Persists.keyword _).orElse (.keyword _))

theorem exists_of_satisfying {r : Char → Bool} {a : Char} {c c' : Cursor} (h : satisfying r c = .done a c') :
    ∃ rest, c.rest = a :: rest ∧ r a = true ∧ c' = ⟨some a, rest⟩ := by
  cases hrest : c.rest with
  | nil =>
    rw [satisfying_of_head (by rw [hrest]; rfl)] at h
    cases h
  | cons b rest =>
    cases hb : r b with
    | true =>
      rw [satisfying_of_rest hrest hb] at h
      obtain ⟨rfl, rfl⟩ := Reply.done.inj h
      exact ⟨rest, rfl, hb, rfl⟩
    | false =>
      rw [satisfying_of_head (by rw [hrest]; exact hb)] at h
      cases h

section

variable {c c' : Cursor} {t : Term}

/-! The three ways to go on behind an operand. -/

theorem value_of_assigned (hindexed : indexed read c = .done t c')
    (h : (assignment read t <|> compoundAssignment read t : Parser Term) c' ≠ .fail) :
    value read c = (assignment read t <|> compoundAssignment read t : Parser Term) c' := by
  rw [value, hindexed]
  simp only
  split
  · next hread => exact hread.symm
  · next hread => exact hread.symm
  · next hread => exact absurd hread h

theorem value_of_command (hindexed : indexed read c = .done t c')
    (hassigned : (assignment read t <|> compoundAssignment read t : Parser Term) c' = .fail)
    (h : commandCall read c ≠ .fail) : value read c = commandCall read c := by
  rw [value, hindexed]
  simp only [hassigned]
  split
  · next hread => exact hread.symm
  · next hread => exact hread.symm
  · next hread => exact absurd hread h

theorem value_of_expression (hindexed : indexed read c = .done t c')
    (hassigned : (assignment read t <|> compoundAssignment read t : Parser Term) c' = .fail)
    (hcommand : commandCall read c = .fail) : value read c = expressionFrom read (power read (Parser.pure t)) c' := by
  rw [value, hindexed]
  simp only [hassigned, hcommand]

theorem argument_of_value (h : commandArgument read c ≠ .fail) : value read c ≠ .fail := fun hfail =>
  h (notAhead_bind_of_fail persists_modifierWord ((congrFun (read_eq .value) c).trans hfail))

/-- A modifier may follow a command, so its word starts no argument. -/
theorem ledBy_argument : LedBy (commandArgument read) argumentLeads := by
  intro c hc
  have hnone := (notAhead_bind_ne_fail hc persists_modifierWord).1
  obtain ⟨hif, hothers⟩ := fail_of_orElse hnone
  obtain ⟨hunless, hwhile⟩ := fail_of_orElse hothers
  refine List.mem_filter.mpr ⟨ledBy_commandArgument c hc, decide_eq_true fun hlead => ?_⟩
  simp only [List.mem_cons, List.not_mem_nil, or_false] at hlead
  rcases hlead with h | h | h
  · exact keyword_of_lead h hif
  · exact keyword_of_lead h hunless
  · exact keyword_of_lead h hwhile

/-- A value that starts with no operand starts with a sign or a negation. -/
theorem signed_of_value (h : value read c ≠ .fail) (hindexed : indexed read c = .fail) :
    minus read c ≠ .fail ∨ negation read c ≠ .fail := by
  by_contra hnone
  rw [not_or, not_not, not_not] at hnone
  exact h (value_of_fail hindexed hnone.1 hnone.2)

/-- Behind a minus sign an argument goes on with an operand. -/
theorem lead_behind_minus (h : commandArgument read c ≠ .fail) (hread : symbol "-" c = .done () c') :
    c'.lead ∈ valueLeads := by
  have hlead : c.lead = .mark '-' :=
    List.mem_singleton.mp (ledBy_symbol (x := '-') rfl (by decide) c (by rw [hread]; exact nofun))
  refine ledBy_read (p := .signed) nofun c' fun hfail => ?_
  rcases signed_of_value (argument_of_value h) (ledBy_indexed.fails (by rw [hlead]; decide)) with hminus | hnegation
  · exact hminus ((bind_of_done hread).trans (bind_of_fail hfail))
  · exact hnegation (ledBy_negation.fails (by rw [hlead]; decide))

/-- Behind an exclamation mark, too. -/
theorem lead_behind_not (h : commandArgument read c ≠ .fail) (hread : symbol "!" c = .done () c') :
    c'.lead ∈ valueLeads := by
  have hlead : c.lead = .mark '!' :=
    List.mem_singleton.mp (ledBy_symbol (x := '!') rfl (by decide) c (by rw [hread]; exact nofun))
  refine ledBy_read (p := .negated) nofun c' fun hfail => ?_
  rcases signed_of_value (argument_of_value h) (ledBy_indexed.fails (by rw [hlead]; decide)) with hminus | hnegation
  · exact hminus (ledBy_minus.fails (by rw [hlead]; decide))
  · refine hnegation ((bind_of_done hread).trans ?_)
    exact notAhead_bind_of_fail (.adjacent _) (bind_of_fail hfail)

theorem lead_behind_sign {a : Char} (h : commandArgument read c ≠ .fail)
    (hread : satisfying (fun a => a == '-' || a == '+' || a == '!') c.skipBlanks = .done a c') : c'.lead ∈ valueLeads := by
  obtain ⟨rest, hrest, ha, rfl⟩ := exists_of_satisfying hread
  rcases (by simpa [or_assoc] using ha : a = '-' ∨ a = '+' ∨ a = '!') with rfl | rfl | rfl
  · exact lead_behind_minus h (symbol_of_rest (w := []) rfl hrest)
  · have hlead := ledBy_argument c h
    rw [lead_of_mark hrest (by decide)] at hlead
    exact absurd hlead (by decide)
  · exact lead_behind_not h (symbol_of_rest (w := []) rfl hrest)

end

theorem persists_identifier : Persists identifier := by
  have hany : ∀ words : List String, Persists (words.foldr (fun w p => keyword w <|> p) Parser.fail) := by
    intro words
    induction words with
    | nil => exact fun _ _ => nofun
    | cons w words ih => exact (Persists.keyword w).orElse ih
  refine (hany keywords).notAhead.bind fun _ => ?_
  have hblanks : Persists blanks := fun _ _ => nofun
  have htaken : Persists (takeWhile Text.isAsciiWord) := fun _ _ => nofun
  have hmark : Persists nameMark := (Persists.satisfying _).bind fun _ => (Persists.adjacent _).notAhead.bind fun _ => .pure _
  exact hblanks.bind fun _ => (Persists.satisfying _).bind fun _ => htaken.bind fun _ => hmark.optional.bind fun _ => .pure _

theorem head_ne_of_adjacent {c : Cursor} {z : Char} (h : adjacent [z] c = .fail) : c.rest.head? ≠ some z := by
  intro hhead
  obtain ⟨rest, hrest⟩ := List.head?_eq_some_iff.mp hhead
  rw [adjacent_of_rest hrest] at h
  cases h

/-- The name of a command is a whole operand. -/
theorem name_of_command {c : Cursor} (h : commandCall read c ≠ .fail) : ∃ f c', identifier c = .done f c' ∧
    indexed read c = .done (.name f) c' ∧ EndsBase c' ∧ commandArgument read c' ≠ .fail := by
  cases hname : identifier c with
  | fail => exact absurd (bind_of_fail hname) h
  | giveUp r => exact absurd hname (persists_identifier c r)
  | done f c' =>
    rw [commandCall, bind_of_done hname] at h
    obtain ⟨hcall, h⟩ := notAhead_bind_ne_fail h (.adjacent _)
    obtain ⟨hindex, h⟩ := notAhead_bind_ne_fail h (.adjacent _)
    obtain ⟨-, h⟩ := notAhead_bind_ne_fail h persists_noArgument
    have hends : EndsBase c' := ⟨head_ne_of_adjacent hcall, head_ne_of_adjacent hindex⟩
    exact ⟨f, c', rfl, indexed_of_name hname hends.noArguments hends.noIndex, hends,
      fun hfail => h (bind_of_fail (bind_of_fail hfail))⟩

/-! ## Assignments -/

/-- Reads the marks behind the target of an assignment. -/
def assignmentMark : Parser Unit :=
  (do symbol "="; notAhead (satisfying fun c => c == '=' || c == '~' || c == '>')) <|> (do let _ ← compoundOperator; return ())

theorem assigned_of_no_mark {c : Cursor} {target : Term} (h : assignmentMark c = .fail) :
    (assignment read target <|> compoundAssignment read target : Parser Term) c = .fail := by
  obtain ⟨hequals, hcompound⟩ := fail_of_orElse h
  refine (orElse_of_fail (bind_bind_of_fail hequals)).trans (bind_of_fail (fail_of_bind (fun _ => pure_ne_fail ()) hcompound))

/-- The spellings of the marks. -/
def markSpellings : List (List Char) := ['='] :: compoundOperators.map (·.1.toList)

/-- Whether the operator can stand where the mark does as the mark without its equals sign only. A comparison starts
with a mark, but that mark is not one of two. -/
def givesWay (o m : List Char) : Bool :=
  m == o ++ ['='] || (!o.isPrefixOf m && !m.isPrefixOf o) || (o == ['=', '='] && m == ['='])

section

variable {c : Cursor} {o : String}

theorem ledBy_assignmentMark : LedBy assignmentMark (.mark '=' :: compoundLeads) :=
  (ledBy_symbol (x := '=') rfl (by decide)).bind.orElse ledBy_compoundOperator.bind

/-- The mark that stands there; an equals sign is not one of two. -/
theorem exists_mark (h : assignmentMark c ≠ .fail) : ∃ m ∈ markSpellings, ∃ tail, c.skipBlanks.rest = m ++ tail ∧
    (m = ['='] → tail.head?.any (· == '=') = false) := by
  by_cases hcompound : ∀ o ∈ compoundOperators, symbol o.1 c = .fail
  · have hequals : (do symbol "="; notAhead (satisfying fun c => c == '=' || c == '~' || c == '>') : Parser Unit) c ≠ .fail :=
      fun hfail => h ((orElse_of_fail hfail).trans (bind_of_fail (compoundOperator_of_fail hcompound)))
    obtain ⟨tail, hrest⟩ := exists_of_symbol (o := "=") fun hfail => hequals (bind_of_fail hfail)
    refine ⟨['='], List.mem_cons_self, tail, hrest, fun _ => ?_⟩
    have hread : symbol "=" c = .done () ⟨some '=', tail⟩ := symbol_of_rest (w := []) rfl hrest
    rw [bind_of_done hread] at hequals
    cases tail with
    | nil => rfl
    | cons z tail =>
      refine beq_eq_false_iff_ne.mpr ?_
      rintro rfl
      exact hequals (notAhead_of_done (satisfying_of_rest rfl (by decide)))
  · simp only [not_forall] at hcompound
    obtain ⟨o, ho, hread⟩ := hcompound
    obtain ⟨tail, hrest⟩ := exists_of_symbol hread
    refine ⟨o.1.toList, List.mem_cons_of_mem _ (List.mem_map.mpr ⟨o, ho, rfl⟩), tail, hrest, fun heq => ?_⟩
    exact absurd heq ((by decide : ∀ o ∈ compoundOperators, o.1.toList ≠ ['=']) o ho)

/-- At a mark an operator is read without the equals sign if at all. -/
theorem symbol_of_givesWay {m tail : List Char} (hrest : c.skipBlanks.rest = m ++ tail)
    (htail : m = ['='] → tail.head?.any (· == '=') = false) (ho : givesWay o.toList m = true) :
    symbol o c = .fail ∨ ∃ c', symbol o c = .done () c' ∧ ∃ tail, c'.rest = '=' :: tail := by
  rw [givesWay] at ho
  simp only [Bool.or_eq_true, Bool.and_eq_true, Bool.not_eq_true', beq_iff_eq] at ho
  rcases ho with (rfl | ⟨hpre, hpost⟩) | ⟨ho, rfl⟩
  · refine .inr ⟨c.skipBlanks.skip o.toList.length, ?_, tail, ?_⟩
    · rw [symbol_eq, if_pos (List.isPrefixOf_iff_prefix.mpr ⟨['='] ++ tail, by rw [hrest, List.append_assoc]⟩)]
    · rw [Cursor.rest_skip, hrest, List.append_assoc, List.drop_left]
      rfl
  · refine .inl <| symbol_of_not_prefix <| Bool.eq_false_iff.mpr fun hstarts => ?_
    rw [hrest] at hstarts
    rcases List.prefix_or_prefix_of_prefix (List.isPrefixOf_iff_prefix.mp hstarts) (List.prefix_append m tail) with hle | hle
    · rw [List.isPrefixOf_iff_prefix.mpr hle] at hpre
      cases hpre
    · rw [List.isPrefixOf_iff_prefix.mpr hle] at hpost
      cases hpost
  · refine .inl <| symbol_of_not_prefix ?_
    rw [ho, hrest]
    cases tail with
    | nil => rfl
    | cons z tail =>
      have hz : (z == '=') = false := htail rfl
      simp [List.isPrefixOf, BEq.comm (a := '='), hz]

theorem symbol_at_mark (h : assignmentMark c ≠ .fail) (ho : ∀ m ∈ markSpellings, givesWay o.toList m = true) :
    symbol o c = .fail ∨ ∃ c', symbol o c = .done () c' ∧ ∃ tail, c'.rest = '=' :: tail :=
  have ⟨m, hm, _, hrest, htail⟩ := exists_mark h
  symbol_of_givesWay hrest htail (ho m hm)

/-- No operand stands where the equals sign of a mark does. -/
theorem lead_of_equals {c : Cursor} {tail : List Char} (h : c.rest = '=' :: tail) : c.lead = .mark '=' :=
  lead_of_mark (by rw [c.skipBlanks_of_ne h (by decide), h]) (by decide)

theorem spelling_at_mark (h : assignmentMark c ≠ .fail)
    (ho : o = "*" ∨ ∀ m ∈ markSpellings, givesWay o.toList m = true) :
    spelling o c = .fail ∨ ∃ c', spelling o c = .done () c' ∧ c'.lead = .mark '=' := by
  unfold spelling
  split
  · next hstar =>
    subst hstar
    obtain ⟨m, hm, tail, hrest, htail⟩ := exists_mark h
    rcases (by decide : ∀ m ∈ markSpellings, givesWay ['*'] m = true ∨ m = ['*', '*', '=']) m hm with hgives | rfl
    · rcases symbol_of_givesWay (o := "*") hrest htail hgives with hfail | ⟨c', hread, tail', hequals⟩
      · exact .inl (bind_of_fail hfail)
      · refine .inr ⟨c', (bind_of_done hread).trans (notAhead_of_fail (adjacent_of_head ?_)), lead_of_equals hequals⟩
        rw [hequals]
        rfl
    · have hread : symbol "*" c = .done () ⟨some '*', '*' :: '=' :: tail⟩ := symbol_of_rest (w := []) rfl hrest
      exact .inl ((bind_of_done hread).trans (notAhead_of_done (adjacent_of_rest rfl)))
  · next hstar =>
    rcases symbol_at_mark h (ho.resolve_left hstar) with hfail | ⟨c', hread, tail, hequals⟩
    · exact .inl hfail
    · exact .inr ⟨c', hread, lead_of_equals hequals⟩

/-- The levels of precedence whose operators give way to the marks. -/
def Level.GivesWay (level : Level) : Prop := ∀ o ∈ level, o.1 = "*" ∨ ∀ m ∈ markSpellings, givesWay o.1.toList m = true

theorem givesWay_of_mem_levels : ∀ level ∈ levels, level.GivesWay := by
  unfold Level.GivesWay
  decide +kernel

theorem operator_at_mark {level : Level} (h : assignmentMark c ≠ .fail) (ho : level.GivesWay) :
    level.operator c = .fail ∨ ∃ op c', level.operator c = .done op c' ∧ c'.lead = .mark '=' := by
  induction level with
  | nil => exact .inl rfl
  | cons o level ih =>
    have hmore := ih fun o' ho' => ho o' (List.mem_cons_of_mem o ho')
    rcases spelling_at_mark h (ho o List.mem_cons_self) with hfail | ⟨c', hread, hlead⟩
    · have hnone : Level.operator (o :: level) c = Level.operator level c := orElse_of_fail (bind_of_fail hfail)
      rwa [hnone]
    · have hlines : newlines c' = .done () c' := newlines_of_lead (by rw [hlead]; decide)
      refine .inr ⟨o.2, c', orElse_of_done ?_, hlead⟩
      rw [bind_of_done hread, bind_of_done hlines]
      rfl

end

section

variable {nested : Phrase → Parser Term} {operand first : Parser Term} {t : Term} {c c' : Cursor}

/-- A chain of operands ends at a mark, or no operand follows the operator. -/
theorem chain_at_mark (hoperand : LedBy operand valueLeads) (h : assignmentMark c' ≠ .fail) (hfirst : first c = .done t c') :
    ∀ {ls : List Level}, (∀ level ∈ ls, level.GivesWay) →
      chain operand ls first c = .done t c' ∨ chain operand ls first c = .fail
  | [], _ => .inl hfirst
  | level :: tighter, ho => by
    rcases chain_at_mark hoperand h hfirst fun l hl => ho l (List.mem_cons_of_mem level hl) with hdone | hfail
    · have hchain : chain operand (level :: tighter) first c =
        leftChain level.operator (chain operand tighter operand) c'.rest.length t c' := bind_of_done hdone
      rw [hchain]
      rcases operator_at_mark h (ho level List.mem_cons_self) with hnone | ⟨op, c₁, hread, hlead⟩
      · exact .inl (leftChain_of_fail hnone _)
      · cases c'.rest.length with
        | zero => exact .inl rfl
        | succ k =>
          refine .inr ((leftChain_of_done hread k t).trans (bind_of_fail ?_))
          exact (ledBy_chain hoperand tighter).fails (by rw [hlead]; decide)
    · exact .inr (bind_of_fail hfail)

/-- An expression that starts with a whole operand ends at a mark, or does not go on. -/
theorem expressionFrom_at_mark (h : assignmentMark c ≠ .fail) :
    expressionFrom read (power read (Parser.pure t)) c = .done t c ∨ expressionFrom read (power read (Parser.pure t))
      c = .fail := by
  have hlead := ledBy_assignmentMark c h
  have hpure : (Parser.pure t : Parser Term) c = .done t c := rfl
  have hpower : power read (Parser.pure t) c = .done t c := by
    have hstars : (do symbol "**"; newlines; read .signed : Parser Term) c = .fail := by
      rcases symbol_at_mark h (o := "**") (by decide) with hfail | ⟨c', hread, tail, hrest⟩
      · exact bind_of_fail hfail
      · have hlead := lead_of_equals hrest
        rw [bind_of_done hread, bind_of_done (newlines_of_lead (by rw [hlead]; decide))]
        exact (ledBy_read (p := .signed) nofun).fails (by rw [hlead]; decide)
    rw [power, bind_of_done hpure, bind_of_done (optional_of_fail hstars)]
    rfl
  rcases chain_at_mark ledBy_signed h hpower givesWay_of_mem_levels with hdone | hfail
  · have hquestion : (do symbol "?"; newlines : Parser Unit) c = .fail :=
      (ledBy_symbol (x := '?') rfl (by decide)).bind.fails fun hq =>
        (by decide : Lead.mark '?' ∉ Lead.mark '=' :: compoundLeads) (List.mem_singleton.mp hq ▸ hlead)
    rw [expressionFrom, bind_of_done hdone, bind_of_done (optional_of_fail hquestion)]
    exact .inl rfl
  · exact .inr (bind_of_fail hfail)

/-- At an exclamation mark an expression goes on with a comparison only. -/
theorem expressionFrom_at_not (hlead : c.lead = .mark '!') (h : symbol "!=" c = .fail) :
    expressionFrom read (power read (Parser.pure t)) c = .done t c := by
  have hpure : (Parser.pure t : Parser Term) c = .done t c := rfl
  have hnone {o : String} {z : Char} {more : List Char} (ho : o.toList = z :: more) (hz : Lead.ofChar z = .mark z)
      (hne : z ≠ '!') : symbol o c = .fail :=
    (ledBy_symbol ho hz).fails (by rw [hlead]; simpa using hne.symm)
  refine expressionFrom_of_no_operator (power_of_no_stars hpure (hnone (z := '*') rfl (by decide) (by decide)))
    (fun level hlevel => operator_of_fail fun o ho => ?_) (hnone (z := '?') rfl (by decide) (by decide))
  obtain ⟨rest, hrest⟩ := rest_of_lead hlead
  rcases (by decide +kernel : ∀ level ∈ levels, ∀ o ∈ level, o.1 = "!=" ∨ o.1.toList.head?.any (· != '!') = true) level
    hlevel o ho
    with heq | hne
  · rwa [heq]
  · exact symbol_of_ne hrest hne

/-- No argument starts with a mark. -/
theorem argument_at_mark (h : assignmentMark c ≠ .fail) : commandArgument read c = .fail := by
  by_contra hargument
  have hminus : c.lead = .mark '-' :=
    (by decide : ∀ l ∈ Lead.mark '=' :: compoundLeads, l ∈ argumentLeads → l = .mark '-') _ (ledBy_assignmentMark c h)
      (ledBy_argument c hargument)
  obtain ⟨rest, hrest⟩ := rest_of_lead hminus
  have hread : symbol "-" c = .done () ⟨some '-', rest⟩ := symbol_of_rest (w := []) rfl hrest
  rcases symbol_at_mark h (o := "-") (by decide) with hfail | ⟨c', hread', tail, hequals⟩
  · rw [hread] at hfail
    cases hfail
  · have hlead := lead_behind_minus hargument hread'
    rw [lead_of_equals hequals] at hlead
    exact absurd hlead (by decide)

end

/-! ## Differences -/

/-- Outcomes that stop at the same place, whatever has been read. -/
inductive Alike {α : Type} : Reply α → Reply α → Prop where
  | done (t t' : α) (c : Cursor) : Alike (.done t c) (.done t' c)
  | fail : Alike .fail .fail
  | giveUp (r : Surrender) : Alike (.giveUp r) (.giveUp r)

namespace Alike

variable {α β : Type} {r r' : Reply α} {p q : Parser α} {f g : α → Parser β} {c c' : Cursor}

theorem ne_fail (h : Alike r r') (hr : r ≠ .fail) : r' ≠ .fail := by
  cases h with
  | done t t' c => exact nofun
  | fail => exact absurd rfl hr
  | giveUp s => exact nofun

theorem bind (h : Alike (p c) (q c')) (hf : ∀ t t' c₁, p c = .done t c₁ → Alike (f t c₁) (g t' c₁)) :
    Alike ((p >>= f) c) ((q >>= g) c') := by
  show Alike (Parser.bind p f c) (Parser.bind q g c')
  unfold Parser.bind
  revert hf
  generalize p c = r, q c' = r' at h
  intro hf
  cases h with
  | done t t' c₁ => exact hf t t' c₁ rfl
  | fail => exact .fail
  | giveUp s => exact .giveUp s

/-- What follows the same reading. -/
theorem after (hf : ∀ t c₁, Alike (f t c₁) (g t c₁)) : Alike ((p >>= f) c) ((p >>= g) c) := by
  cases hread : p c with
  | done t c₁ =>
    rw [bind_of_done hread, bind_of_done hread]
    exact hf t c₁
  | fail =>
    rw [bind_of_fail hread, bind_of_fail hread]
    exact .fail
  | giveUp s =>
    rw [bind_of_giveUp hread, bind_of_giveUp hread]
    exact .giveUp s

end Alike

section

variable {operand first first' : Parser Term} {c c' : Cursor}

/-- Where operators and operands end does not depend on what stands before them. -/
theorem alike_leftChain (operator : Parser Connective) (operand : Parser Term) (k : Nat) (left left' : Term) (c : Cursor) :
    Alike (leftChain operator operand k left c) (leftChain operator operand k left' c) := by
  induction k generalizing left left' c with
  | zero => exact .done left left' c
  | succ k ih =>
    rw [leftChain_succ, leftChain_succ]
    refine .after fun op? c₁ => ?_
    cases op? with
    | none => exact .done left left' c₁
    | some op => exact .after fun right c₂ => ih _ _ c₂

theorem alike_chain_cons (level : Level) (tighter : List Level)
    (h : Alike (chain operand tighter first c) (chain operand tighter first' c')) :
    Alike (chain operand (level :: tighter) first c) (chain operand (level :: tighter) first' c') :=
  h.bind fun left left' c₁ _ => alike_leftChain level.operator (chain operand tighter operand) _ left left' c₁

theorem read_signed : read .signed = signed read := read_eq .signed

theorem reads_signed : ReadsPrefix (signed read) := read_signed ▸ reads_read .signed

theorem reads_chain_signed (ls : List Level) : ReadsPrefix (chain (signed read) ls (signed read)) :=
  (agree_chain (n := 0) (.refl reads_signed) ls (.refl reads_signed)).reads

theorem alike_expressionFrom (h : Alike (chain (signed read) levels first c) (chain (signed read) levels first' c')) :
    Alike (expressionFrom read first c) (expressionFrom read first' c') := by
  refine h.bind fun test test' c₁ _ => .after fun more? c₂ => ?_
  cases more? with
  | none => exact .done test test' c₂
  | some _ => exact .after fun yes c₃ => .after fun _ c₄ => .after fun _ c₅ => .after fun no c₆ => .done _ _ c₆

end

/-- The operators that bind tighter than a difference. -/
def multiplicative : Level := [("*", .core .mul), ("/", .core .div), ("%", .core .mod)]

/-- The operators that bind as a difference does. -/
def additive : Level := [("-", .core .sub), ("+", .core .add)]

/-- The operators that bind less than a difference. -/
def looser : List Level :=
  [[("||", .either)], [("&&", .both)], [("==", .core .eq), ("!=", .notEqual)],
    [("<=", .core .le), (">=", .core .ge), ("<", .core .lt), (">", .core .gt)]]

theorem levels_eq : levels = looser ++ [additive, multiplicative] := rfl

section

variable {c c' : Cursor} {t : Term}

/-- No blank stands behind a sign with which an argument can start. -/
theorem newlines_behind_minus (hno : noArgument c = .fail) (hread : symbol "-" c = .done () c') :
    newlines c' = .done () c' := by
  obtain ⟨rest, hrest⟩ := rest_of_lead
    (List.mem_singleton.mp (ledBy_symbol (x := '-') rfl (by decide) c (by rw [hread]; exact nofun)))
  have hsymbol : symbol "-" c = .done () ⟨some '-', rest⟩ := symbol_of_rest (w := []) rfl hrest
  obtain ⟨-, rfl⟩ := Reply.done.inj (hread.symm.trans hsymbol)
  have hsign : (do let _ ← satisfying fun a => a == '-' || a == '+' || a == '!'; let _ ← satisfying isBlank; return ()
    : Parser Unit)
      c.skipBlanks = .fail := (fail_of_orElse (hno : _ = Reply.fail)).2
  rw [bind_of_done (satisfying_of_rest hrest (by decide))] at hsign
  have hblank := fail_of_bind (fun _ => pure_ne_fail ()) hsign
  cases rest with
  | nil => exact newlines_of_lead (by rw [lead_of_end (Cursor.rest_skipBlanks_of_end rfl)]; decide)
  | cons z rest =>
    have hz : isBlank z = false := by
      by_contra hz
      rw [satisfying_of_rest rfl (Bool.not_eq_false _ |>.mp hz)] at hblank
      cases hblank
    have hne {b : Char} (hb : isBlank b = true) : z ≠ b := by
      rintro rfl
      rw [hz] at hb
      cases hb
    have hskip := Cursor.skipBlanks_of_ne (c := ⟨some '-', z :: rest⟩) rfl (hne (by decide))
    exact newlines_of_ne (congrArg Cursor.rest hskip) (hne (by decide))

/-- The operand that is subtracted, and what follows it, end where they do behind a sign. -/
theorem alike_difference (hread : symbol "-" c = .done () c') (hlines : newlines c' = .done () c') :
    Alike (chain (signed read) [additive, multiplicative] (power read (Parser.pure t)) c)
      (chain (signed read) [additive, multiplicative] (signed read) c) := by
  have hlead : c.lead = .mark '-' :=
    List.mem_singleton.mp (ledBy_symbol (x := '-') rfl (by decide) c (by rw [hread]; exact nofun))
  have hleft : chain (signed read) [multiplicative] (power read (Parser.pure t)) c = .done t c := by
    have hpure : (Parser.pure t : Parser Term) c = .done t c := rfl
    have hpower : power read (Parser.pure t) c = .done t c :=
      power_of_no_stars hpure ((ledBy_symbol (x := '*') rfl (by decide)).fails (by rw [hlead]; decide))
    refine chain_of_no_operator hpower fun level hlevel => ?_
    obtain rfl := List.mem_singleton.mp hlevel
    obtain ⟨rest, hrest⟩ := rest_of_lead hlead
    exact operator_of_fail fun o ho => symbol_of_ne hrest
      ((by decide : ∀ o ∈ multiplicative, o.1.toList.head?.any (· != '-') = true) o ho)
  have hoperator : Level.operator additive c = .done (.core .sub) c' := by
    refine orElse_of_done ?_
    rw [bind_of_done (show spelling "-" c = .done () c' from hread), bind_of_done hlines]
    rfl
  have hshorter := (Advances.symbol (o := "-") (by decide)).length_lt hread
  obtain ⟨k, hk⟩ : ∃ k, c.rest.length = k + 1 := ⟨c.rest.length - 1, by omega⟩
  have hdifference : chain (signed read) [additive, multiplicative] (power read (Parser.pure t)) c =
      (chain (signed read) [multiplicative] (signed read) >>= fun right =>
        leftChain (Level.operator additive) (chain (signed read) [multiplicative] (signed read)) k
          (.binary (.core .sub) t right)) c' := by
    refine (bind_of_done hleft).trans ?_
    rw [hk]
    exact leftChain_of_done hoperator k t
  have hsigned : Alike (signed read c') (signed read c) := by
    have hminus : minus read c = (do return Term.minus (← signed read) : Parser Term) c' := by
      rw [minus, bind_of_done hread, read_signed]
    have hother : power read (negated read) c = .fail := bind_of_fail (ledBy_negated.fails (by rw [hlead]; decide))
    have hboth : signed read c = minus read c := by
      rw [signed]
      cases hfirst : minus read c with
      | done s c₁ => exact orElse_of_done hfirst
      | fail => exact (orElse_of_fail hfirst).trans hother
      | giveUp r => exact orElse_of_giveUp hfirst
    rw [hboth, hminus]
    cases hread : signed read c' with
    | done s c₁ =>
      rw [bind_of_done hread]
      exact .done s _ c₁
    | fail =>
      rw [bind_of_fail hread]
      exact .fail
    | giveUp r =>
      rw [bind_of_giveUp hread]
      exact .giveUp r
  have hfactors : Alike (chain (signed read) [multiplicative] (signed read) c')
      (chain (signed read) [multiplicative] (signed read) c) := alike_chain_cons multiplicative [] hsigned
  rw [hdifference]
  refine hfactors.bind fun right left c₁ hc₁ => ?_
  obtain ⟨w, hw, -⟩ := reads_chain_signed _ _ _ _ hc₁
  rw [hw, List.length_append] at hshorter
  have hlevel := advances_operator (isOperator_of_mem_levels additive (by simp [levels, additive]))
  rw [hlevel.leftChain_eq (reads_chain_signed _) k c₁.rest.length _ c₁ (by omega) (Nat.le_refl _)]
  exact alike_leftChain _ _ _ _ _ c₁

/-- What could be subtracted is an argument if no blank is behind the sign. -/
theorem argument_of_difference (hlead : c.lead = .mark '-') (hno : noArgument c = .fail)
    (h : expressionFrom read (power read (Parser.pure t)) c ≠ .fail) : commandArgument read c ≠ .fail := by
  obtain ⟨rest, hrest⟩ := rest_of_lead hlead
  have hread : symbol "-" c = .done () ⟨some '-', rest⟩ := symbol_of_rest (w := []) rfl hrest
  have hlevels (ls : List Level) : Alike (chain (signed read) (ls ++ [additive, multiplicative]) (power read (Parser.pure t)) c)
      (chain (signed read) (ls ++ [additive, multiplicative]) (signed read) c) := by
    induction ls with
    | nil => exact alike_difference hread (newlines_behind_minus hno hread)
    | cons level ls ih => exact alike_chain_cons level _ ih
  have hexpression : expression read c ≠ .fail := (alike_expressionFrom (hlevels looser)).ne_fail h
  have hnone {word : String} (hword : word ∈ keywords) : keyword word c = .fail :=
    (ledBy_keyword hword).fails (by rw [hlead]; simp)
  have hwords : (keyword "if" <|> keyword "unless" <|> keyword "while" : Parser Unit) c = .fail :=
    (orElse_of_fail (hnone (by decide))).trans ((orElse_of_fail (hnone (by decide))).trans (hnone (by decide)))
  have hindexed : indexed read c = .fail := ledBy_indexed.fails (by rw [hlead]; decide)
  rw [commandArgument, bind_of_done (notAhead_of_fail hwords), read_eq .value]
  exact fun hfail => hexpression ((value_of_no_operand hindexed).symm.trans hfail)

end

end MinRuby.Syntax
