import MinRuby.Proofs.Syntax.Command

/-!
# Reading on behind a break

Values, statements and blocks are read alike in a text that breaks off and in the text that goes on, if what stands
behind them in the shorter one could not belong to them. With the operands before them this is every phrase.

* `keeps_value` — an assignment, a command or an expression stays what it is.
* `keeps_read` — all phrases, by induction on the length of the text.
-/

namespace MinRuby.Syntax

open MinRuby.Text (isBlank)
open MinRuby.Syntax.Parser

/-! ## Signs and exponents -/

theorem ledBy_adjacent {z : Char} (hz : Lead.ofChar z = .mark z) (hblank : z ≠ ' ') : LedBy (adjacent [z]) [.mark z] := by
  intro c hc
  by_contra hlead
  refine hc (adjacent_of_head_ne fun hhead => hlead ?_)
  obtain ⟨rest, hrest⟩ := List.head?_eq_some_iff.mp hhead
  rw [lead_of_mark (by rw [c.skipBlanks_of_ne hrest hblank, hrest]) hz]
  exact List.mem_singleton_self _

theorem ledBy_indexing : LedBy (indexing read) [.mark '['] := (ledBy_adjacent (by decide) (by decide)).bind

section

variable {x y : List Char} {n : Nat} (hcut : Cut x y) (hn : ∀ p, Keeps x y n (read p) fun _ => follow p)
include hcut hn

theorem keeps_indexed : Keeps x y (n + 1) (indexed read) fun _ => EndsBase := by
  have htakes : Takes (indexing read) := (takes_adjacent (by decide)).bind fun _ => readsPrefix_bind reads_newlines fun _ =>
    readsPrefix_bind (reads_read .expression) fun _ => readsPrefix_bind reads_newlines fun _ =>
      readsPrefix_bind (reads_symbol _) fun _ => Reads.pure trivial
  have hmany : Keeps x y (n + 1) (many (indexing read)) fun _ => EndsBase :=
    Keeps.many (F := fun _ _ => True) hcut htakes (keeps_indexing hcut hn) ledBy_indexing (by simp) (fun _ _ _ => trivial)
      (fun _ _ _ => trivial) fun _ _ h => bind_of_fail (adjacent_fails_beyond hcut (by decide) h.noIndex)
  refine (keeps_primary hcut hn).bind (fun base => hmany.map _) fun _ c h => ?_
  refine (continues_bind.mp h).of_many.elim (fun hindex => ?_) EndsBase.noArguments
  exact head_ne_of_lead (ledBy_indexing c hindex) (by decide) (by decide) (by decide)

theorem keeps_negation : Keeps x y (n + 1) (negation read) fun _ => EndsBase := by
  refine keeps_behindSymbol hcut rfl (by decide) (by decide) ?_
  refine .notAhead (Persists.adjacent _) ((hn .negated).map _) fun c _ => ?_
  exact sameAt_adjacent hcut (by decide)

theorem keeps_negated : Keeps x y (n + 1) (negated read) fun _ => EndsBase :=
  .orElse hcut (keeps_negation hcut hn) (keeps_indexed hcut hn) ledBy_negation ledBy_indexed (by decide)

theorem keeps_power {base : Parser Term} (hbase : Keeps x y (n + 1) base fun _ => EndsBase) :
    Keeps x y (n + 1) (power read base) fun _ => EndsOperand := by
  have hexponent : Keeps x y (n + 1) (do symbol "**"; newlines; read .signed) fun _ => EndsOperand := by
    refine keeps_behindSymbol (z := '*') hcut rfl (by decide) (by decide) ?_
    exact (keeps_newlines hcut).bind (fun _ => hn .signed) fun _ c h =>
      inside_of_lead (h.lead (ledBy_read (p := .signed) nofun)) (by decide)
  have hstars : LedBy (do symbol "**"; newlines; read .signed) [.mark '*'] := (ledBy_symbol rfl (by decide)).bind
  have hoptional : Keeps x y (n + 1) (optional do symbol "**"; newlines; read .signed) fun _ => EndsOperand :=
    hexponent.optional fun c _ h => bind_of_fail ((sameAt_symbol hcut h.ready (by decide)).fails h.noExponent)
  refine hbase.bind (fun base => hoptional.map _) fun _ c h => ?_
  by_cases hfail : (do symbol "**"; newlines; read .signed : Parser Term) c = .fail
  · exact ((continues_bind.mp h).of_done (optional_of_fail hfail) : EndsOperand c).toEndsBase
  · exact endsBase_of_lead (hstars c hfail) (by decide)

theorem keeps_minus : Keeps x y (n + 1) (minus read) fun _ => EndsOperand :=
  keeps_behindSymbol hcut rfl (by decide) (by decide) ((hn .signed).map _)

theorem keeps_signed : Keeps x y (n + 1) (signed read) fun _ => EndsOperand :=
  .orElse hcut (keeps_minus hcut hn) (keeps_power hcut hn (keeps_negated hcut hn)) ledBy_minus ledBy_negated.bind (by decide)

/-! ## Expressions -/

theorem keeps_expressionFrom {first : Parser Term} (hfirst : Keeps x y (n + 1) first fun _ => EndsOperand) :
    Keeps x y (n + 1) (expressionFrom read first) fun _ => EndsOperand := by
  have hchain := keeps_chain hcut (keeps_signed hcut hn) ledBy_signed isOperator_of_mem_levels hfirst
  have hquestion : LedBy (do symbol "?"; newlines) [.mark '?'] := (ledBy_symbol rfl (by decide)).bind
  have hno (test yes : Term) : Keeps x y n (do newlines; let no ← read .expression; return Term.choice test yes no)
    fun _ => EndsOperand :=
    (keeps_newlines hcut).bind (fun _ => (hn .expression).map _) fun _ c h =>
      inside_of_lead (h.lead (ledBy_read (p := .expression) nofun).bind) (by decide)
  refine hchain.bind (fun test => ?_) fun test c h => ?_
  · refine Keeps.optionalToken (F := fun _ => Cursor.Inside) ((takes_symbol (by decide)).bind fun _ => reads_newlines) ?_
      (.pure test) (fun _ => ?_) (fun _ c h => inside_of_lead (h.lead (ledBy_read (p := .expression) nofun).bind) (by decide)) ?_
    · exact .andThen (keeps_symbol hcut rfl (by decide) (by decide)) fun _ => keeps_newlines hcut
    · refine (hn .expression).bind (fun yes => ?_) fun _ c h => ?_
      · exact .andThen (keeps_symbol hcut rfl (by decide) (by decide)) fun _ => hno test yes
      · exact endsOperand_of_lead (h.lead (ledBy_symbol (x := ':') rfl (by decide)).bind) (by decide)
    · intro c hfail (h : EndsOperand (c.append x))
      exact bind_of_fail ((sameAt_symbol hcut h.ready (by decide)).fails (fail_of_bind (fun _ => newlines_ne_fail) hfail))
  · by_cases hfail : (do symbol "?"; newlines : Parser Unit) c = .fail
    · exact (continues_bind.mp h).of_done (optional_of_fail hfail)
    · exact endsOperand_of_lead (hquestion c hfail) (by decide)

end

/-! ## Assignments -/

section

variable {x y : List Char} {n : Nat} (hcut : Cut x y)
include hcut

theorem sameAt_compoundOperator {c : Cursor} (hready : (c.append x).Ready) : SameAt x y compoundOperator c := by
  have hall : ∀ os : List (String × BinaryOp), (∀ o ∈ os, o.1.toList.any atBreak = false) →
      SameAt x y (os.foldr (fun o p => (do symbol o.1; return o.2) <|> p) Parser.fail) c := by
    intro os hos
    induction os with
    | nil => exact .fail
    | cons o os ih =>
      exact ((sameAt_symbol hcut hready (hos o List.mem_cons_self)).bind fun _ _ _ => .pure _).orElse fun _ =>
        ih fun o' ho' => hos o' (List.mem_cons_of_mem o ho')
  exact hall compoundOperators (by decide)

omit hcut in
theorem keeps_ofOption {a? : Option Term} {F : Cursor → Prop} : Keeps x y n (ofOption a?) fun _ => F := by
  cases a? with
  | none => exact ⟨Reads.fail, fun _ _ _ => .fail⟩
  | some a => exact .pure a

omit hcut in
theorem of_ofOption {a? : Option Term} {F : Cursor → Prop} {c : Cursor} (h : Continues (ofOption a?) (fun _ => F) c) : F c := by
  cases a? with
  | none => exact h.elim
  | some a => exact h

/-- The value behind an equals sign. -/
theorem keeps_assigned (hn : ∀ p, Keeps x y n (read p) fun _ => follow p) (g : Term → Option Term) :
    Keeps x y n (do newlines; let value ← read .value; ofOption (g value)) fun _ => EndsValue :=
  (keeps_newlines hcut).bind (fun _ => (hn .value).bind (fun _ => keeps_ofOption) fun _ _ => of_ofOption) fun _ c h =>
    inside_of_lead (h.lead (ledBy_read (p := .value) nofun).bind) (by decide)

theorem keeps_assignment (hn : ∀ p, Keeps x y n (read p) fun _ => follow p) (target : Term) :
    Keeps x y (n + 1) (assignment read target) fun _ => EndsValue := by
  refine keeps_behindSymbol hcut rfl (by decide) (by decide) ?_
  exact .notAhead (Persists.satisfying _) (keeps_assigned hcut hn _) fun c _ => sameAt_satisfying hcut (by decide)

theorem keeps_compoundAssignment (hn : ∀ p, Keeps x y n (read p) fun _ => follow p) (target : Term) :
    Keeps x y (n + 1) (compoundAssignment read target) fun _ => EndsValue :=
  .tokenThen takes_compoundOperator
    (.of_token (takes_compoundOperator.mono fun _ _ _ => trivial) fun c hc =>
      sameAt_compoundOperator hcut (ready_of_lead (ledBy_compoundOperator _ hc) (by decide)))
    fun op => keeps_assigned hcut hn (target.update? op)

/-- An assignment of one kind or the other. -/
theorem keeps_either (hn : ∀ p, Keeps x y n (read p) fun _ => follow p) (target : Term) :
    Keeps x y (n + 1) (assignment read target <|> compoundAssignment read target) fun _ => EndsValue :=
  .orElse hcut (keeps_assignment hcut hn target) (keeps_compoundAssignment hcut hn target)
    (ledBy_symbol (x := '=') rfl (by decide)).bind ledBy_compoundOperator.bind (by decide)

end

/-! ## Commands -/

section

variable {x y : List Char} {n : Nat} {c : Cursor} (hcut : Cut x y)
include hcut

/-- In front of an argument a sign is read with what stands behind it. -/
theorem sameAt_noArgument (h : commandArgument read (c.append x) ≠ .fail) : SameAt x y noArgument c := by
  have hready : (c.append x).Ready := ready_of_lead (ledBy_argument _ h) (by decide)
  refine sameAt_blanks hcut hready (.orElse ?_ fun _ => ?_)
  · exact (sameAt_satisfying hcut (by decide)).bind fun _ _ _ => .pure ()
  · refine (sameAt_satisfying hcut (by decide)).bind fun a c' hc' => .bind (sameAt_satisfying_of_rest fun hend => ?_)
      fun _ _ _ => .pure ()
    rw [← hcut.skipBlanks_left] at hc'
    exact (by decide : ∀ l ∈ [Lead.finish, .mark '\n', .mark '\\'], l ∉ valueLeads) _ (hcut.lead_at_break hend)
      (lead_behind_sign h hc')

theorem sameAt_modifierWord (hready : (c.append x).Ready) :
    SameAt x y (keyword "if" <|> keyword "unless" <|> keyword "while") c :=
  (sameAt_keyword hcut hready (by decide)).orElse fun _ => (sameAt_keyword hcut hready (by decide)).orElse fun _ =>
    sameAt_keyword hcut hready (by decide)

theorem keeps_argument (hn : ∀ p, Keeps x y n (read p) fun _ => follow p) :
    Keeps x y n (commandArgument read) fun _ => EndsValue :=
  .notAhead persists_modifierWord (hn .value) fun _ h =>
    sameAt_modifierWord hcut (ready_of_lead (h.lead (ledBy_read (p := .value) nofun)) (by decide))

theorem keeps_commandCall (hn : ∀ p, Keeps x y n (read p) fun _ => follow p) :
    Keeps x y (n + 1) (commandCall read) fun _ => EndsValue := by
  have hargs : Keeps x y n (sepBy1 (commandArgument read) comma) fun _ => EndsValue := by
    refine Keeps.sepBy1 hcut (keeps_argument hcut hn) takes_comma ?_ ledBy_comma (by simp) (fun _ _ => .inr) (fun _ _ h => h)
      fun c hfail h => ?_
    · exact (keeps_comma hcut).bind (fun _ => keeps_argument hcut hn) fun _ c h =>
        inside_of_lead (h.lead ledBy_argument) (by decide)
    · exact ledBy_comma.bind.fails_beyond hcut (h.resolve_right fun hread => hread hfail) (by decide)
  refine .tokenThen takes_identifier (keeps_identifier hcut) fun function => ?_
  refine .notAhead (Persists.adjacent _) (.notAhead (Persists.adjacent _) (.notAhead persists_noArgument ?_ fun c h => ?_)
    fun c _ => ?_) fun c _ => ?_
  · exact hargs.map _
  · exact sameAt_noArgument hcut fun hfail => h.ne_fail (bind_of_fail (bind_of_fail hfail))
  · exact sameAt_adjacent hcut (by decide)
  · exact sameAt_adjacent hcut (by decide)

/-- A blank that stands at the break of the shorter text stands there in the longer one. -/
theorem blank_fails_left (h : satisfying isBlank (c.append y) = .fail) : satisfying isBlank (c.append x) = .fail := by
  by_cases hrest : c.rest = []
  · refine satisfying_of_head ?_
    rw [Cursor.rest_append, hrest, List.nil_append]
    cases hcut with
    | line v => rfl
    | feed v =>
      have hfeed : (c.append ('\n' :: v)).rest = '\n' :: v := by rw [Cursor.rest_append, hrest]; rfl
      rw [satisfying_of_rest hfeed (by decide)] at h
      cases h
    | joined v => decide
  · exact (sameAt_satisfying_of_rest hrest).fails_left h

theorem noArgument_fails_left (hready : (c.append x).Ready) (h : noArgument (c.append y) = .fail) :
    noArgument (c.append x) = .fail := by
  obtain ⟨hmark, hsign⟩ := fail_of_orElse (h : _ = Reply.fail)
  rw [hcut.skipBlanks_right hready] at hmark hsign
  have hsame : SameAt x y (do let _ ← satisfying fun a => "*/%<>=&|?:,.)]\x7d".toList.contains a; return () : Parser Unit)
      c.skipBlanks := (sameAt_satisfying hcut (by decide)).bind fun _ _ _ => .pure ()
  show (_ <|> _ : Parser Unit) (c.append x).skipBlanks = .fail
  rw [hcut.skipBlanks_left]
  refine (orElse_of_fail (hsame.fails_left hmark)).trans ?_
  have hread : SameAt x y (satisfying fun a => a == '-' || a == '+' || a == '!') c.skipBlanks :=
  sameAt_satisfying hcut (by decide)
  cases hdone : satisfying (fun a => a == '-' || a == '+' || a == '!') (c.skipBlanks.append x) with
  | done a c' =>
    obtain ⟨c', rfl, hlong⟩ := hread.done hdone
    rw [bind_of_done hlong] at hsign
    rw [bind_of_done hdone]
    exact bind_of_fail (blank_fails_left hcut (fail_of_bind (fun _ => pure_ne_fail ()) hsign))
  | fail => exact bind_of_fail hdone
  | giveUp r => exact absurd hdone (Persists.satisfying _ _ r)

/-- What stands behind an operand with which an expression goes on. -/
def goesOnLeads : List Lead := .mark '?' :: operatorLeads ++ .mark ',' :: valueEnds

omit hcut in
theorem lead_of_goesOn {t : Term} (h : Continues (expressionFrom read (power read (Parser.pure t))) (fun _ => EndsValue) c) :
    c.lead ∈ goesOnLeads := by
  rw [goesOnLeads, List.cons_append, ← List.cons_append, List.mem_append]
  by_cases hlead : c.lead ∈ .mark '?' :: operatorLeads
  · exact .inl hlead
  · have hpure : (Parser.pure t : Parser Term) c = .done t c := rfl
    have hdone : expressionFrom read (power read (Parser.pure t)) c = .done t c :=
      expressionFrom_of_lead (power_of_lead hpure fun hoperator => hlead (List.mem_cons_of_mem _ hoperator)) hlead
    exact .inr (h.of_done hdone).lead

/-- What is no argument in the shorter text is none in the longer one, if an expression goes on there. -/
theorem argument_fails_beyond {t : Term}
    (h : Continues (expressionFrom read (power read (Parser.pure t))) (fun _ => EndsValue) (c.append x))
    (hno : noArgument (c.append x) = .fail) (hargument : commandArgument read (c.append x) = .fail) :
    commandArgument read (c.append y) = .fail := by
  have hlead := lead_of_goesOn h
  have hready : (c.append x).Ready := ready_of_lead hlead (by decide)
  by_cases hminus : (c.append x).lead = .mark '-'
  · exact absurd hargument (argument_of_difference hminus hno h.ne_fail)
  by_cases hmark : (c.append x).lead = .mark '!'
  · -- only the comparison starts with this mark, and no argument does
    by_contra hlong
    have hunequal : symbol "!=" (c.append x) ≠ .fail := fun hfail => by
      have hnext := h.of_done (expressionFrom_at_not hmark hfail)
      have hlead := hnext.lead
      rw [hmark] at hlead
      exact absurd hlead (by decide)
    obtain ⟨tail, hrest⟩ := exists_of_symbol fun hfail =>
      hunequal ((sameAt_symbol hcut hready (o := "!=") (by decide)).fails_left hfail)
    have hread : symbol "!" (c.append y) = .done () ⟨some '!', '=' :: tail⟩ := symbol_of_rest (w := []) rfl hrest
    have hlead := lead_behind_not hlong hread
    rw [lead_of_equals rfl] at hlead
    exact absurd hlead (by decide)
  · refine ledBy_argument.fails_beyond hcut (E := goesOnLeads.filter fun l => l ∉ [Lead.mark '-', .mark '!']) ?_ (by decide)
    exact List.mem_filter.mpr ⟨hlead, by simp [hminus, hmark]⟩

theorem commandCall_fails_beyond {c' : Cursor} {t : Term} (hindexed : indexed read (c.append x) = .done t c')
    (h : Continues (expressionFrom read (power read (Parser.pure t))) (fun _ => EndsValue) c')
    (hcommand : commandCall read (c.append x) = .fail) : commandCall read (c.append y) = .fail := by
  have hready : (c.append x).Ready := ready_of_lead (ledBy_indexed _ (by rw [hindexed]; exact nofun)) (by decide)
  refine ((sameAt_identifier hcut hready).bind fun f d hd => ?_).fails hcommand
  rw [commandCall, bind_of_done hd] at hcommand
  refine .notAhead_bind (sameAt_adjacent hcut (by decide)) fun hcall =>
    .notAhead_bind (sameAt_adjacent hcut (by decide)) fun hindex => ?_
  rw [bind_of_done (notAhead_of_fail hcall), bind_of_done (notAhead_of_fail hindex)] at hcommand
  have hname : indexed read (c.append x) = .done (.name f) (d.append x) :=
    indexed_of_name hd (head_ne_of_adjacent hcall) (head_ne_of_adjacent hindex)
  obtain ⟨rfl, rfl⟩ := Reply.done.inj (hindexed.symm.trans hname)
  have hlong : (do notAhead noArgument; let args ← sepBy1 (commandArgument read) comma; return Term.call f args : Parser Term)
      (d.append y) = .fail := by
    by_cases hno : noArgument (d.append x) = .fail
    · rw [bind_of_done (notAhead_of_fail hno)] at hcommand
      have hargument := fail_of_sepBy1 (fail_of_bind (fun _ => pure_ne_fail _) hcommand)
      exact notAhead_bind_of_fail persists_noArgument (bind_of_fail (bind_of_fail (argument_fails_beyond hcut h hno hargument)))
    · by_contra hread
      exact hno (noArgument_fails_left hcut (ready_of_lead (lead_of_goesOn h) (by decide))
        (notAhead_bind_ne_fail hread persists_noArgument).1)
  rw [SameAt, hcommand, hlong]
  exact .fail

/-! ## Values -/

theorem sameAt_assignmentMark (hready : (c.append x).Ready) : SameAt x y assignmentMark c :=
  ((sameAt_symbol hcut hready (by decide)).bind fun _ _ _ => (sameAt_satisfying hcut (by decide)).notAhead).orElse fun _ =>
    (sameAt_compoundOperator hcut hready).bind fun _ _ _ => .pure ()

/-- Where no assignment goes on in the shorter text none does in the longer one. -/
theorem assigned_fails_beyond (target : Term) (hready : (c.append x).Ready) (h : assignmentMark (c.append x) = .fail) :
    (assignment read target <|> compoundAssignment read target : Parser Term) (c.append y) = .fail :=
  assigned_of_no_mark ((sameAt_assignmentMark hcut hready).fails h)

section

variable (hn : ∀ p, Keeps x y n (read p) fun _ => follow p)
include hn

/-- A value that starts with a sign or a negation. -/
theorem same_value_of_no_operand (hc : c.rest.length < n + 1) (h : Continues (value read) (fun _ => EndsValue) (c.append x))
    (hindexed : indexed read (c.append x) = .fail) : SameAt x y (value read) c := by
  have hexpression := value_of_no_operand hindexed
  have hlead : (c.append x).lead ∈ [.mark '-'] ++ [.mark '!'] :=
    List.mem_append.mpr ((signed_of_value h.ne_fail hindexed).imp (ledBy_minus _) (ledBy_negation _))
  have hlong : indexed read (c.append y) = .fail := ledBy_indexed.fails_beyond hcut hlead (by decide)
  rw [Continues, hexpression] at h
  rw [SameAt, hexpression, value_of_no_operand hlong]
  exact (keeps_expressionFrom hcut hn (keeps_signed hcut hn)).same c hc (Continues.mono h fun _ _ h => h.endsOperand)

/-- A value that starts with an operand. -/
theorem same_value_of_operand {c' : Cursor} {t : Term} (hc : c.rest.length < n + 1)
    (h : Continues (value read) (fun _ => EndsValue) (c.append x)) (hindexed : indexed read (c.append x) = .done t c') :
    SameAt x y (value read) c := by
  have hlong (hbase : EndsBase c') : ∃ d : Cursor, c' = d.append x ∧ d.rest.length < n + 1 ∧
      indexed read (c.append y) = .done t (d.append y) := by
    have hsame := (keeps_indexed hcut hn).same c hc (by rw [Continues, hindexed]; exact hbase)
    obtain ⟨d, rfl, hlong⟩ := hsame.done hindexed
    exact ⟨d, rfl, Nat.lt_of_le_of_lt (length_le_of_reads (keeps_indexed hcut hn).reads hindexed) hc, hlong⟩
  by_cases hassigned : (assignment read t <|> compoundAssignment read t : Parser Term) c' = .fail
  · by_cases hcommand : commandCall read (c.append x) = .fail
    · have hvalue := value_of_expression hindexed hassigned hcommand
      rw [Continues, hvalue] at h
      have hgoesOn : Continues (expressionFrom read (power read (Parser.pure t))) (fun _ => EndsValue) c' := h
      have hlead := lead_of_goesOn hgoesOn
      obtain ⟨d, rfl, hd, hlong⟩ := hlong (endsBase_of_lead hlead (by decide))
      have hmark : assignmentMark (d.append x) = .fail := by
        by_contra hmark
        rcases expressionFrom_at_mark (t := t) hmark with hdone | hfail
        · have hends := (hgoesOn.of_done hdone).lead
          exact (by decide : ∀ l ∈ Lead.mark '=' :: compoundLeads, l ∉ Lead.mark ',' :: valueEnds) _
            (ledBy_assignmentMark _ hmark) hends
        · exact hgoesOn.ne_fail hfail
      have hassignedLong := assigned_fails_beyond hcut t (ready_of_lead hlead (by decide)) hmark
      have hcommandLong := commandCall_fails_beyond hcut hindexed hgoesOn hcommand
      rw [SameAt, hvalue, value_of_expression hlong hassignedLong hcommandLong]
      have hpure : Keeps x y (n + 1) (Parser.pure t) fun _ => EndsBase := .pure t
      exact (keeps_expressionFrom hcut hn (keeps_power hcut hn hpure)).same d hd
        (hgoesOn.mono fun _ _ h => h.endsOperand)
    · obtain ⟨f, c₁, -, hindexed', hbase, hargument⟩ := name_of_command hcommand
      obtain ⟨rfl, rfl⟩ := Reply.done.inj (hindexed.symm.trans hindexed')
      obtain ⟨d, rfl, hd, hlong⟩ := hlong hbase
      have hmark : assignmentMark (d.append x) = .fail := by
        by_contra hmark
        exact hargument (argument_at_mark hmark)
      have hready := ready_of_lead (ledBy_argument _ hargument) (by decide)
      have hvalue := value_of_command hindexed hassigned hcommand
      rw [Continues, hvalue] at h
      have hsame : SameAt x y (commandCall read) c := (keeps_commandCall hcut hn).same c hc h
      rw [SameAt, hvalue, value_of_command hlong (assigned_fails_beyond hcut _ hready hmark) fun hfail =>
        hcommand (hsame.fails_left hfail)]
      exact hsame
  · have hlead : c'.lead ∈ [.mark '='] ++ compoundLeads :=
      ((ledBy_symbol (x := '=') rfl (by decide)).bind.orElse ledBy_compoundOperator.bind) c' hassigned
    obtain ⟨d, rfl, hd, hlong⟩ := hlong (endsBase_of_lead hlead (by decide))
    have hvalue := value_of_assigned hindexed hassigned
    rw [Continues, hvalue] at h
    have hsame := (keeps_either hcut hn t).same d hd h
    rw [SameAt, hvalue, value_of_assigned hlong fun hfail => hassigned (hsame.fails_left hfail)]
    exact hsame

theorem keeps_value : Keeps x y (n + 1) (value read) fun _ => EndsValue where
  reads := by
    have hread : read .value = value read := read_eq .value
    exact hread ▸ reads_read .value
  same c hc h := by
    cases hindexed : indexed read (c.append x) with
    | done t c' => exact same_value_of_operand hcut hn hc h hindexed
    | fail => exact same_value_of_no_operand hcut hn hc h hindexed
    | giveUp r =>
      have hlong := ((keeps_indexed hcut hn).same c hc (by rw [Continues, hindexed]; trivial)).giveUp hindexed
      simp only [SameAt, value, hindexed, hlong]
      exact .giveUp r

end

omit hcut in
theorem takes_modifierWord (word : String) (kind : Modifier) (h : word.toList ≠ []) :
    Takes (do keyword word; return kind : Parser Modifier) := (takes_keyword h).bind fun _ => Reads.pure trivial

theorem keeps_modifier (hn : ∀ p, Keeps x y n (read p) fun _ => follow p) :
    Takes (modifier read) ∧ Keeps x y (n + 1) (modifier read) fun _ => EndsOperand := by
  have hword {word : String} {kind : Modifier} {F : Modifier → Cursor → Prop} (hword : word ∈ keywords) :
      Keeps x y (n + 1) (do keyword word; return kind) F :=
    Keeps.andThen (keeps_keyword hcut hword) fun _ => .pure _
  have htakes := (takes_modifierWord "if" .whenTrue (by decide)).orElse
    ((takes_modifierWord "unless" .unlessTrue (by decide)).orElse
      (takes_modifierWord "while" .whileTrue (by decide)))
  refine ⟨htakes.bind fun _ => readsPrefix_bind (reads_read .expression) fun _ => Reads.pure trivial, ?_⟩
  refine .tokenThen htakes ?_ fun kind => (hn .expression).map _
  exact .orElse hcut (hword (by decide)) (.orElse hcut (hword (by decide)) (hword (by decide)) (ledBy_keyword (by decide)).bind
    (ledBy_keyword (by decide)).bind (by decide)) (ledBy_keyword (by decide)).bind
    ((ledBy_keyword (by decide)).bind.orElse (ledBy_keyword (by decide)).bind) (by decide)

theorem keeps_statement (hn : ∀ p, Keeps x y n (read p) fun _ => follow p) :
    Keeps x y (n + 1) (statement read) fun _ => follow .statement := by
  have hends : ∀ l ∈ statementEnds, l ∈ valueEnds := by decide
  obtain ⟨htakes, hmodifier⟩ := keeps_modifier hcut hn
  have hmany : Keeps x y (n + 1) (many (modifier read)) fun _ => follow .statement :=
    Keeps.many hcut htakes hmodifier ledBy_modifier (by simp)
      (fun _ c h => endsOperand_of_lead (ledBy_modifier c h) (by decide)) (fun _ c h => endsOperand_of_lead h (by decide))
      fun c _ h => ledBy_modifier.fails_beyond hcut h (by decide)
  refine (keeps_value hcut hn).bind (fun base => hmany.map _) fun _ c h => .inl ?_
  refine (continues_bind.mp h).of_many.elim (fun hread => ?_) fun h => hends _ h
  exact (by decide : ∀ l ∈ [Lead.word "if", .word "unless", .word "while"], l ∈ valueEnds) _ (ledBy_modifier c hread)

omit hcut in
theorem ledBy_separators1 : LedBy separators1 [.mark '\n', .mark ';'] := ledBy_separator.bind

omit hcut in
theorem separators1_of_lead (h : c.lead ∈ [.mark '\n', .mark ';']) : separators1 c ≠ .fail := by
  intro hfail
  have hseparators : ∀ (u : Unit) (c : Cursor), separators c ≠ .fail := fun _ => separators_ne_fail
  obtain ⟨hfeed, hsemicolon⟩ := fail_of_orElse (fail_of_bind hseparators hfail)
  have hread {o : String} {z : Char} (ho : o.toList = [z]) (h : c.lead = .mark z) : symbol o c ≠ .fail := by
    obtain ⟨rest, hrest⟩ := rest_of_lead h
    rw [symbol_of_rest (w := []) ho (hrest.trans (by rw [ho]; rfl))]
    exact nofun
  simp only [List.mem_cons, List.not_mem_nil, or_false] at h
  rcases h with h | h
  · exact hread rfl h hfeed
  · exact hread rfl h hsemicolon

omit hcut in
/-- What follows a block follows its last statement, with marks before it or without. -/
theorem lead_of_blockEnd (h : Continues separators (fun _ => follow .block) c) :
    c.lead ∈ [.mark '\n', .mark ';'] ++ blockEnds := by
  rw [List.mem_append]
  by_cases hlead : c.lead ∈ [.mark '\n', .mark ';']
  · exact .inl hlead
  · exact .inr (h.of_done (separators_of_lead hlead))

/-- Behind the last statement of a block stands no further one in either text. -/
theorem statement_fails_beyond (h : Continues separators (fun _ => follow .block) (c.append x))
    (hfail : (do let _ ← separators1; statement read) (c.append x) = .fail) :
    (do let _ ← separators1; statement read) (c.append y) = .fail := by
  have hends (c' : Cursor) (hc' : separators1 (c.append x) = .done () c') : follow .block c' :=
    h.of_done (separators_of_separators1 hc')
  by_cases hmarks : separators1 (c.append x) = .fail
  · have hlead : (c.append x).lead ∈ blockEnds :=
      (List.mem_append.mp (lead_of_blockEnd h)).resolve_left fun hmark => separators1_of_lead hmark hmarks
    exact ledBy_separators1.bind.fails_beyond hcut hlead (by decide)
  · have hcontinues : Continues separators1 (fun _ => follow .block) (c.append x) := by
      unfold Continues
      cases hread : separators1 (c.append x) with
      | done u c' => exact hends c' hread
      | fail => exact hmarks hread
      | giveUp r => trivial
    have hsame := (keeps_separators1 (n := c.rest.length + 1) hcut).same c (Nat.lt_succ_self _)
      (hcontinues.mono fun _ _ h => inside_of_lead h (by decide))
    refine (hsame.bind fun _ c' hc' => ?_ : SameAt x y (do let _ ← separators1; statement read) c).fails hfail
    have hlead : (c'.append x).lead ∈ blockEnds := hcontinues.of_done hc'
    rw [SameAt, ledBy_statement.fails ((by decide : ∀ l ∈ blockEnds, l ∉ valueLeads) _ hlead),
      ledBy_statement.fails_beyond hcut hlead (by decide)]
    exact .fail

/-- Statements up to what follows the block. -/
theorem keeps_block (hn : ∀ p, Keeps x y n (read p) fun _ => follow p) :
    Keeps x y (n + 1) (block read) fun _ => follow .block := by
  have hmarks : ∀ l ∈ [Lead.mark '\n', .mark ';'], l ∈ statementEnds := by decide
  have hmore : Keeps x y (n + 1) (do let _ ← separators1; statement read) fun _ => follow .statement :=
    (keeps_separators1 hcut).bind (fun _ => keeps_statement hcut hn) fun _ c h =>
      inside_of_lead (h.lead ledBy_statement) (by decide)
  have hstatements : Keeps x y (n + 1) (sepBy1 (statement read) separators1) fun _ => Continues separators fun _ =>
    follow .block :=
    Keeps.sepBy1 hcut (keeps_statement hcut hn) (takes_separator.bind fun _ => reads_separators) hmore ledBy_separators1
      (by simp)
      (fun _ c h => hmarks _ (ledBy_separators1.bind c h))
      (fun _ c h => (by decide : ∀ l ∈ [Lead.mark '\n', .mark ';'] ++ blockEnds, l ∈ statementEnds) _ (lead_of_blockEnd h))
      fun c hfail h => statement_fails_beyond hcut h hfail
  have hoptional : Keeps x y (n + 1) (optional (sepBy1 (statement read) separators1)) fun _ =>
      Continues separators fun _ => follow .block :=
    hstatements.optional fun c _ h => ledBy_statement.bind.fails_beyond hcut (lead_of_blockEnd h) (by decide)
  refine (keeps_separators hcut).bind (fun _ => hoptional.bind (fun ts => ?_) fun _ c h => continues_bind.mp h) fun _ c h => ?_
  · exact ((keeps_separators hcut).mono fun _ c h => inside_of_lead h (by decide)).map _
  · by_cases hfail : sepBy1 (statement read) separators1 c = .fail
    · refine inside_of_lead (lead_of_blockEnd ?_) (by decide)
      exact continues_bind.mp ((continues_bind.mp h).of_done (optional_of_fail hfail))
    · exact inside_of_lead (ledBy_statement.bind c hfail) (by decide)

end

/-! ## Phrases -/

theorem keeps_read {x y : List Char} (hcut : Cut x y) (n : Nat) : ∀ p, Keeps x y n (read p) fun _ => follow p := by
  induction n with
  | zero => exact fun p => ⟨reads_read p, fun c hc => absurd hc (Nat.not_lt_zero _)⟩
  | succ n ih =>
    intro p
    rw [read_eq]
    cases p with
    | expression => exact keeps_expressionFrom hcut ih (keeps_signed hcut ih)
    | negated => exact keeps_negated hcut ih
    | signed => exact keeps_signed hcut ih
    | value => exact keeps_value hcut ih
    | statement => exact keeps_statement hcut ih
    | block => exact keeps_block hcut ih

end MinRuby.Syntax
