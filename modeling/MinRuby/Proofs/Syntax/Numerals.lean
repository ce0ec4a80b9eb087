import MinRuby.Proofs.Syntax.Vocabulary
import Mathlib.Algebra.GroupWithZero.Nat
import Mathlib.Data.List.Induction

/-!
# Literals that have texts

A numeral in a program has at most as many digits as a numeral that is written, so each literal of a program has a text.
The grammar is gone through once, and the reduction and the resolution of names add no other numbers than zero and the
negative of a number.

* `Node.Legible` — a tree whose literals have texts.
* `legible_of_parseProgram` — the tree of a program is one.
-/

namespace MinRuby.Syntax

open MinRuby.Numeric (digitsValue)
open MinRuby.Text (digitValue? isDecimalDigit)

/-- The data has a text. -/
abbrev HasText (d : Data) : Prop := d.hasLongNumeral = false

theorem hasText_int {n : Int} {k : Nat} (hn : n.natAbs < Nat.pow 10 k) (hk : k ≤ maxDigits) : HasText (.int n) := by
  have hmono {k l : Nat} (h : k ≤ l) : Nat.pow 10 k ≤ Nat.pow 10 l := Nat.pow_le_pow_right (by decide) h
  show isLongNumeral n = false
  rw [isLongNumeral, decide_eq_false_iff_not, Nat.not_le]
  delta numeralBound
  exact Nat.lt_of_lt_of_le hn (hmono hk)

/-! ## Terms and trees -/

mutual

/-- Each literal of the term has a text. -/
def Term.Legible : Term → Prop
  | .lit value => HasText value.toData
  | .name _ => True
  | .call _ args => LegibleAll args
  | .array items => LegibleAll items
  | .hash items => LegibleAll items
  | .index container position => container.Legible ∧ position.Legible
  | .negation operand => operand.Legible
  | .minus operand => operand.Legible
  | .binary _ left right => left.Legible ∧ right.Legible
  | .choice test yes no => test.Legible ∧ yes.Legible ∧ no.Legible
  | .choiceUnless test no yes => test.Legible ∧ no.Legible ∧ yes.Legible
  | .assignName _ value => value.Legible
  | .assignIndex container position value => container.Legible ∧ position.Legible ∧ value.Legible
  | .updateName _ _ value => value.Legible
  | .updateIndex container position _ value => container.Legible ∧ position.Legible ∧ value.Legible
  | .loop test body => test.Legible ∧ body.Legible
  | .caseOf subject clauses => subject.Legible ∧ clauses.Legible
  | .definition _ _ body => body.Legible
  | .beginEnd body => body.Legible
  | .block statements => LegibleAll statements
  | .modified statement _ test => statement.Legible ∧ test.Legible
termination_by structural t => t

/-- Each literal of the terms has a text. -/
def LegibleAll : List Term → Prop
  | [] => True
  | t :: rest => t.Legible ∧ LegibleAll rest
termination_by structural l => l

/-- Each literal of the clauses has a text. -/
def Clauses.Legible : Clauses → Prop
  | .otherwise body => body.Legible
  | .clause values body rest => LegibleAll values ∧ body.Legible ∧ rest.Legible
termination_by structural c => c

end

theorem legibleAll_iff {ts : List Term} : LegibleAll ts ↔ ∀ t ∈ ts, t.Legible := by
  induction ts with
  | nil => simp [LegibleAll]
  | cons t rest ih => simp [LegibleAll, ih]

namespace Node

mutual

/-- Each literal of the tree has a text. -/
def Legible : Node → Prop
  | lit value => HasText value
  | binary _ left right => left.Legible ∧ right.Legible
  | stmts body => LegibleAll body
  | varAssign _ value => value.Legible
  | varRef _ => True
  | choice test yes no => test.Legible ∧ yes.Legible ∧ no.Legible
  | loop test body => test.Legible ∧ body.Legible
  | loopAfter test body => test.Legible ∧ body.Legible
  | funcDef _ _ body => body.Legible
  | funcCall _ args => LegibleAll args
  | aryNew items => LegibleAll items
  | aryRef container position => container.Legible ∧ position.Legible
  | aryAssign container position value => container.Legible ∧ position.Legible ∧ value.Legible
  | hashNew items => LegibleAll items
  | unknown _ => True
  | scalar => True
  | broken => True
termination_by structural n => n

/-- Each literal of the trees has a text. -/
def LegibleAll : List Node → Prop
  | [] => True
  | n :: rest => n.Legible ∧ LegibleAll rest
termination_by structural l => l

end

theorem legibleAll_iff {ns : List Node} : LegibleAll ns ↔ ∀ n ∈ ns, n.Legible := by
  induction ns with
  | nil => simp [LegibleAll]
  | cons n rest ih => simp [LegibleAll, ih]

/-! ## Resolution -/

mutual

theorem legible_resolve : ∀ {n : Node}, n.Legible → Gives n.resolve Legible
  | lit _, h => .pure h
  | binary _ _ _, h => (legible_resolve h.1).bind fun _ hl => (legible_resolve h.2).bind fun _ hr => .pure ⟨hl, hr⟩
  | stmts _, h => (legible_resolveAll h).bind fun _ hb => .pure hb
  | varAssign _ value, h => (legible_resolve (n := value) h).bind fun _ hv => fun _ => hv
  | varRef x, _ => fun known => by
    change ((if x ∈ known then varRef x else funcCall x []) : Node).Legible
    split <;> exact trivial
  | choice _ _ _, h => (legible_resolve h.1).bind fun _ ht => (legible_resolve h.2.1).bind fun _ hy =>
    (legible_resolve h.2.2).bind fun _ hn => .pure ⟨ht, hy, hn⟩
  | loop _ _, h => (legible_resolve h.1).bind fun _ ht => (legible_resolve h.2).bind fun _ hb => .pure ⟨ht, hb⟩
  | loopAfter _ _, h => (legible_resolve h.2).bind fun _ hb => (legible_resolve h.1).bind fun _ ht => .pure ⟨ht, hb⟩
  | funcDef _ params body, h => .pure (legible_resolve (n := body) h params)
  | funcCall _ _, h => (legible_resolveAll h).bind fun _ ha => .pure ha
  | aryNew _, h => (legible_resolveAll h).bind fun _ hi => .pure hi
  | aryRef _ _, h => (legible_resolve h.1).bind fun _ hc => (legible_resolve h.2).bind fun _ hp => .pure ⟨hc, hp⟩
  | aryAssign _ _ _, h => (legible_resolve h.1).bind fun _ hc => (legible_resolve h.2.1).bind fun _ hp =>
    (legible_resolve h.2.2).bind fun _ hv => .pure ⟨hc, hp, hv⟩
  | hashNew _, h => (legible_resolveAll h).bind fun _ hi => .pure hi
  | unknown _, h => .pure h
  | scalar, h => .pure h
  | broken, h => .pure h

theorem legible_resolveAll : ∀ {ns : List Node}, LegibleAll ns → Gives (resolveAll ns) LegibleAll
  | [], _ => .pure trivial
  | _ :: _, h => (legible_resolve h.1).bind fun _ hm => (legible_resolveAll h.2).bind fun _ hms => .pure ⟨hm, hms⟩

end

/-! ## Reduction -/

theorem legible_negate {n : Node} (h : n.Legible) : n.negate.Legible := ⟨h, rfl, rfl⟩

theorem legible_negative {n : Node} (h : n.Legible) : n.negative.Legible := by
  have hzero : HasText (.int 0) := @hasText_int 0 1 (by decide) (by decide)
  unfold negative
  split
  · next n =>
    have hlong : isLongNumeral n = false := h
    show isLongNumeral (-n) = false
    rwa [isLongNumeral, Int.natAbs_neg]
  · rfl
  · exact ⟨hzero, h⟩

theorem legible_matchesAny {temporary : String} {values : List Node} (hv : LegibleAll values) :
    (matchesAny temporary values).Legible := by
  fun_induction matchesAny temporary values with
  | case1 => rfl
  | case2 value => exact ⟨trivial, hv.1⟩
  | case3 value rest _ ih => exact ⟨⟨trivial, hv.1⟩, rfl, ih hv.2⟩

end Node

theorem Modifier.legible_apply {modifier : Modifier} {runsFirst : Bool} {statement test : Node}
    (hs : statement.Legible) (ht : test.Legible) : (modifier.apply runsFirst statement test).Legible := by
  cases modifier with
  | whenTrue => exact ⟨ht, hs, trivial⟩
  | unlessTrue => exact ⟨ht, trivial, hs⟩
  | whileTrue => cases runsFirst <;> exact ⟨ht, hs⟩

mutual

theorem legible_desugar : ∀ {t : Term}, t.Legible → Gives t.desugar Node.Legible
  | .lit _, h => .pure h
  | .name _, _ => .pure trivial
  | .call _ _, h => (legible_desugarAll h).bind fun _ ha => .pure ha
  | .array _, h => (legible_desugarAll h).bind fun _ hi => .pure hi
  | .hash _, h => (legible_desugarAll h).bind fun _ hi => .pure hi
  | .index _ _, h => (legible_desugar h.1).bind fun _ hc => (legible_desugar h.2).bind fun _ hp => .pure ⟨hc, hp⟩
  | .negation operand, h => (legible_desugar (t := operand) h).bind fun _ hn => .pure (Node.legible_negate hn)
  | .minus operand, h => (legible_desugar (t := operand) h).bind fun _ hn => .pure (Node.legible_negative hn)
  | .binary op left right, h => by
    refine (legible_desugar h.1).bind fun l hl => (legible_desugar h.2).bind fun r hr => ?_
    cases op with
    | core op => exact .pure ⟨hl, hr⟩
    | notEqual => exact .pure (Node.legible_negate ⟨hl, hr⟩)
    | both => exact fun _ => ⟨hl, ⟨trivial, hr, trivial⟩, trivial⟩
    | either => exact fun _ => ⟨hl, ⟨trivial, trivial, hr⟩, trivial⟩
  | .choice _ _ _, h => (legible_desugar h.1).bind fun _ ht => (legible_desugar h.2.1).bind fun _ hy =>
    (legible_desugar h.2.2).bind fun _ hn => .pure ⟨ht, hy, hn⟩
  | .choiceUnless _ _ _, h => (legible_desugar h.1).bind fun _ ht => (legible_desugar h.2.1).bind fun _ hn =>
    (legible_desugar h.2.2).bind fun _ hy => .pure ⟨ht, hy, hn⟩
  | .assignName _ value, h => (legible_desugar (t := value) h).bind fun _ hv => .pure hv
  | .assignIndex _ _ _, h => (legible_desugar h.1).bind fun _ hc => (legible_desugar h.2.1).bind fun _ hp =>
    (legible_desugar h.2.2).bind fun _ hv => .pure ⟨hc, hp, hv⟩
  | .updateName _ _ value, h => (legible_desugar (t := value) h).bind fun _ hv => .pure ⟨trivial, hv⟩
  | .updateIndex _ _ _ _, h => (legible_desugar h.1).bind fun _ hc => (legible_desugar h.2.1).bind fun _ hp =>
    (legible_desugar h.2.2).bind fun _ hv => .pure ⟨hc, hp, ⟨hc, hp⟩, hv⟩
  | .loop _ _, h => (legible_desugar h.1).bind fun _ ht => (legible_desugar h.2).bind fun _ hb => .pure ⟨ht, hb⟩
  | .caseOf _ _, h => (legible_desugar h.1).bind fun _ hs n =>
    ⟨hs, legible_desugarClauses h.2 (n + 1), trivial⟩
  | .definition _ _ body, h => (legible_desugar (t := body) h).bind fun _ hb => .pure hb
  | .beginEnd body, h => legible_desugar (t := body) h
  | .block _, h => (legible_desugarAll h).bind fun _ hb => .pure hb
  | .modified _ _ _, h => (legible_desugar h.1).bind fun _ hs => (legible_desugar h.2).bind fun _ ht =>
    .pure (Modifier.legible_apply hs ht)

theorem legible_desugarAll : ∀ {ts : List Term}, LegibleAll ts → Gives (desugarAll ts) Node.LegibleAll
  | [], _ => .pure trivial
  | _ :: _, h => (legible_desugar h.1).bind fun _ hn => (legible_desugarAll h.2).bind fun _ hns => .pure ⟨hn, hns⟩

theorem legible_desugarClauses {temporary : String} : ∀ {c : Clauses}, c.Legible → Gives (c.desugar temporary) Node.Legible
  | .otherwise body, h => legible_desugar (t := body) h
  | .clause _ _ _, h => (legible_desugarAll h.1).bind fun _ hv => (legible_desugar h.2.1).bind fun _ hb =>
    (legible_desugarClauses h.2.2).bind fun _ hr => .pure ⟨Node.legible_matchesAny hv, hb, hr⟩

end

/-! ## What the grammar gives -/

namespace Parser

variable {α β : Type} {p q : Parser α} {ok : α → Prop}

/-- Whatever `p` gives satisfies `ok`. -/
def Yields (p : Parser α) (ok : α → Prop) : Prop := ∀ c a c', p c = .done a c' → ok a

namespace Yields

theorem mono {ok' : α → Prop} (h : Yields p ok) (hok : ∀ a, ok a → ok' a) : Yields p ok' :=
  fun c a c' hdone => hok a (h c a c' hdone)

theorem pure {a : α} (h : ok a) : Yields (Pure.pure a : Parser α) ok := by
  intro c a' c' hdone
  obtain ⟨rfl, -⟩ : a = a' ∧ c = c' := by simpa [Pure.pure, Parser.pure] using hdone
  exact h

theorem giveUp {r : Surrender} : Yields (Parser.giveUp r : Parser α) ok := by
  intro c a c' hdone
  cases hdone

theorem bind {okB : β → Prop} {s : Parser β} {f : β → Parser α} (hs : Yields s okB) (hf : ∀ b, okB b → Yields (f b) ok) :
    Yields (s >>= f) ok := by
  intro c a c'' hdone
  change Parser.bind s f c = _ at hdone
  unfold Parser.bind at hdone
  split at hdone
  · next b c' hb => exact hf b (hs c b c' hb) c' a c'' hdone
  · cases hdone
  · cases hdone

/-- A part that does not matter. -/
theorem token {s : Parser β} {f : β → Parser α} (hf : ∀ b, Yields (f b) ok) : Yields (s >>= f) ok :=
  @bind α β ok (fun _ => True) s f (fun _ _ _ _ => trivial) fun b _ => hf b

theorem orElse (hp : Yields p ok) (hq : Yields q ok) : Yields (p <|> q) ok := by
  intro c a c' hdone
  change Parser.orElse p (fun _ => q) c = _ at hdone
  unfold Parser.orElse at hdone
  split at hdone
  · next hpc =>
    obtain ⟨rfl, rfl⟩ := Reply.done.inj hdone
    exact hp c _ _ hpc
  · exact hq c a c' hdone
  · cases hdone

theorem optional (hp : Yields p ok) : Yields (Parser.optional p) fun a? => ∀ a ∈ a?, ok a := by
  intro c a? c' hdone
  unfold Parser.optional at hdone
  split at hdone
  · next a c'' hpc =>
    obtain ⟨rfl, -⟩ := Reply.done.inj hdone
    intro a' ha'
    obtain rfl := Option.some.inj ha'
    exact hp c _ _ hpc
  · obtain ⟨rfl, -⟩ := Reply.done.inj hdone
    intro a' ha'
    cases ha'
  · cases hdone

theorem upTo (hp : Yields p ok) : ∀ bound, Yields (Parser.upTo p bound) fun as => ∀ a ∈ as, ok a
  | 0 => pure (List.forall_mem_nil _)
  | bound + 1 => by
    intro c as c'' hdone
    unfold Parser.upTo at hdone
    split at hdone
    · next a c' hpc =>
      split at hdone
      · next as' c₃ hrest =>
        obtain ⟨rfl, -⟩ := Reply.done.inj hdone
        exact List.forall_mem_cons.mpr ⟨hp c a c' hpc, upTo hp bound c' as' c₃ hrest⟩
      · cases hdone
      · cases hdone
    · obtain ⟨rfl, -⟩ := Reply.done.inj hdone
      exact List.forall_mem_nil _
    · cases hdone

theorem many (hp : Yields p ok) : Yields (Parser.many p) fun as => ∀ a ∈ as, ok a := fun c => upTo hp c.rest.length c

theorem many1 (hp : Yields p ok) : Yields (Parser.many1 p) fun as => ∀ a ∈ as, ok a :=
  bind hp fun _ ha => bind (many hp) fun _ has => pure (List.forall_mem_cons.mpr ⟨ha, has⟩)

theorem sepBy1 {s : Parser β} (hp : Yields p ok) : Yields (Parser.sepBy1 p s) fun as => ∀ a ∈ as, ok a :=
  bind hp fun _ ha => bind (many (token fun _ => hp)) fun _ has => pure (List.forall_mem_cons.mpr ⟨ha, has⟩)

theorem ofOption {a? : Option α} (h : ∀ a, a? = some a → ok a) : Yields (Parser.ofOption a?) ok := by
  cases a? with
  | none => exact fun _ _ _ hdone => by cases hdone
  | some a => exact pure (h a rfl)

end Yields

/-! ## Numerals -/

theorem digitsValue_lt : ∀ (digits : List Char), digitsValue digits < 10 ^ digits.length := by
  intro digits
  induction digits using List.reverseRecOn with
  | nil => decide
  | append_singleton digits c ih =>
    have hdigit : (digitValue? c).getD 0 < 10 := by
      cases h : digitValue? c with
      | none => decide
      | some d => exact MinRuby.Text.digitValue?_lt h
    rw [digitsValue, List.foldl_append, List.length_append, List.length_singleton, Nat.pow_succ]
    rw [digitsValue] at ih
    simp only [List.foldl_cons, List.foldl_nil]
    omega

theorem yields_numeral : Yields numeral fun value => HasText value.toData := by
  refine .token fun _ => .token fun first => .token fun more => .token fun fraction? => .token fun exponent? => ?_
  split
  · split
    · exact .giveUp
    · next h => exact .pure (hasText_int (digitsValue_lt _) (Nat.le_of_not_lt h))
  · exact .pure rfl

theorem yields_stringLiteral : Yields stringLiteral fun value => HasText value.toData :=
  .orElse (.token fun _ => .pure rfl) (.token fun _ => .pure rfl)

end Parser

/-! ## The grammar -/

open MinRuby.Syntax.Parser

theorem Term.legible_choices {test body : Term} {clauses : List (Term × Term)} {otherwise : Term} (ht : test.Legible)
    (hb : body.Legible) (hc : ∀ c ∈ clauses, c.1.Legible ∧ c.2.Legible) (ho : otherwise.Legible) :
    (Term.choices test body clauses otherwise).Legible := by
  refine ⟨ht, hb, ?_⟩
  induction clauses with
  | nil => exact ho
  | cons c rest ih =>
    obtain ⟨h₁, h₂⟩ := hc c List.mem_cons_self
    exact ⟨h₁, h₂, ih fun d hd => hc d (List.mem_cons_of_mem c hd)⟩

theorem Term.legible_foldl_index {base : Term} {ps : List Term} (hb : base.Legible) (hp : ∀ p ∈ ps, p.Legible) :
    (ps.foldl Term.index base).Legible := by
  induction ps generalizing base with
  | nil => exact hb
  | cons p rest ih => exact ih ⟨hb, hp p List.mem_cons_self⟩ fun t ht => hp t (List.mem_cons_of_mem p ht)

theorem Term.legible_foldl_modified {base : Term} {ms : List (Modifier × Term)} (hb : base.Legible)
    (hm : ∀ m ∈ ms, m.2.Legible) : (ms.foldl (fun s m => .modified s m.1 m.2) base).Legible := by
  induction ms generalizing base with
  | nil => exact hb
  | cons m rest ih => exact ih ⟨hb, hm m List.mem_cons_self⟩ fun t ht => hm t (List.mem_cons_of_mem m ht)

theorem Clauses.legible_ofList {clauses : List (List Term × Term)} {otherwise : Term}
    (hc : ∀ c ∈ clauses, LegibleAll c.1 ∧ c.2.Legible) (ho : otherwise.Legible) :
      (Clauses.ofList clauses otherwise).Legible := by
  induction clauses with
  | nil => exact ho
  | cons c rest ih =>
    obtain ⟨h₁, h₂⟩ := hc c List.mem_cons_self
    exact ⟨h₁, h₂, ih fun d hd => hc d (List.mem_cons_of_mem c hd)⟩

theorem legible_getD_nil {ts? : Option (List Term)} (h : ∀ ts ∈ ts?, LegibleAll ts) : LegibleAll (ts?.getD []) := by
  cases ts? with
  | none => exact trivial
  | some ts => exact h ts rfl

theorem legible_getD_nothing {t? : Option Term} (h : ∀ t ∈ t?, t.Legible) : (t?.getD .nothing).Legible := by
  cases t? with
  | none => exact trivial
  | some t => exact h t rfl

section

variable {nested : Phrase → Parser Term} (hn : ∀ p, Yields (nested p) Term.Legible)

include hn

theorem yields_expressions : Yields (expressions nested) LegibleAll :=
  (Yields.sepBy1 (hn .expression)).mono fun _ h => legibleAll_iff.mpr h

theorem yields_callWithParentheses : Yields (callWithParentheses nested) Term.Legible :=
  .token fun _ => .token fun _ => .token fun _ => (Yields.optional (yields_expressions hn)).bind fun _ h =>
    .token fun _ => .token fun _ => .pure (legible_getD_nil h)

theorem yields_arrayLiteral : Yields (arrayLiteral nested) Term.Legible :=
  .token fun _ => .token fun _ => (Yields.optional ((yields_expressions hn).bind fun _ h => .token fun _ => .pure h)).bind
    fun _ h => .token fun _ => .token fun _ => .pure (legible_getD_nil h)

theorem yields_keyAndValue : Yields (keyAndValue nested) LegibleAll :=
  (hn .expression).bind fun _ hk => .token fun _ => .token fun _ => (hn .expression).bind fun _ hv => .pure ⟨hk, hv, trivial⟩

theorem yields_hashLiteral : Yields (hashLiteral nested) Term.Legible := by
  have hflatten (pairs : List (List Term)) (h : ∀ ts ∈ pairs, LegibleAll ts) : LegibleAll pairs.flatten :=
    legibleAll_iff.mpr fun t ht => by
      obtain ⟨ts, hts, ht⟩ := List.mem_flatten.mp ht
      exact legibleAll_iff.mp (h ts hts) t ht
  exact .token fun _ => .token fun _ => (Yields.optional ((Yields.sepBy1 (yields_keyAndValue hn)).bind fun pairs h =>
    .token fun _ => .pure (hflatten pairs h))).bind fun _ h => .token fun _ => .token fun _ => .pure (legible_getD_nil h)

theorem yields_parenthesized : Yields (parenthesized nested) Term.Legible :=
  .token fun _ => .token fun _ => (hn .statement).bind fun _ ht => .token fun _ => .token fun _ => .pure ht

theorem yields_otherwise : Yields (Parser.optional (elseBranch nested)) fun t? => (t?.getD .nothing).Legible :=
  (Yields.optional (.token fun _ => hn .block)).mono fun _ h => legible_getD_nothing h

theorem yields_clause (word : String) : Yields (clause nested word) fun c => c.1.Legible ∧ c.2.Legible :=
  .token fun _ => (hn .expression).bind fun _ ht => .token fun _ => (hn .block).bind fun _ hb => .pure ⟨ht, hb⟩

theorem yields_ifExpression : Yields (ifExpression nested) Term.Legible :=
  (yields_clause hn _).bind fun _ hc => (Yields.many (yields_clause hn _)).bind fun _ hcs => (yields_otherwise hn).bind
    fun _ ho => .token fun _ => .pure (Term.legible_choices hc.1 hc.2 hcs ho)

theorem yields_unlessExpression : Yields (unlessExpression nested) Term.Legible :=
  (yields_clause hn _).bind fun _ hc => (yields_otherwise hn).bind fun _ ho => .token fun _ => .pure ⟨hc.1, hc.2, ho⟩

theorem yields_whileExpression : Yields (whileExpression nested) Term.Legible :=
  .token fun _ => (hn .expression).bind fun _ ht => .token fun _ => (hn .block).bind fun _ hb => .token fun _ => .pure ⟨ht, hb⟩

theorem yields_whenClause : Yields (whenClause nested) fun c => LegibleAll c.1 ∧ c.2.Legible :=
  .token fun _ => (yields_expressions hn).bind fun _ hvs => .token fun _ => (hn .block).bind fun _ hb => .pure ⟨hvs, hb⟩

theorem yields_caseExpression : Yields (caseExpression nested) Term.Legible :=
  .token fun _ => (hn .expression).bind fun _ hs => .token fun _ => (Yields.many1 (yields_whenClause hn)).bind fun _ hcs =>
    (yields_otherwise hn).bind fun _ ho => .token fun _ => .pure ⟨hs, Clauses.legible_ofList hcs ho⟩

theorem yields_definition : Yields (definition nested) Term.Legible :=
  .token fun _ => .token fun _ => .token fun _ => (hn .block).bind fun _ hb => .token fun _ => .pure hb

theorem yields_beginExpression : Yields (beginExpression nested) Term.Legible :=
  .token fun _ => (hn .block).bind fun _ hb => .token fun _ => .pure hb

omit hn in
theorem yields_literal {s : Parser Literal} (hs : Yields s fun value => HasText value.toData) :
    Yields (Term.lit <$> s) Term.Legible :=
  hs.bind fun _ h => .pure h

omit hn in
theorem yields_literalWord (word : String) {value : Literal} (h : HasText value.toData) :
    Yields (literalWord word value) Term.Legible :=
  .token fun _ => .pure h

omit hn in
theorem yields_name : Yields (Term.name <$> identifier) Term.Legible := .token fun _ => .pure trivial

theorem yields_primary : Yields (primary nested) Term.Legible :=
  (yields_literal yields_numeral).orElse <| (yields_literal yields_stringLiteral).orElse <|
  (yields_literalWord _ rfl).orElse <| (yields_literalWord _ rfl).orElse <| (yields_literalWord _ rfl).orElse <|
  (yields_arrayLiteral hn).orElse <| (yields_hashLiteral hn).orElse <| (yields_parenthesized hn).orElse <|
  (yields_ifExpression hn).orElse <| (yields_unlessExpression hn).orElse <| (yields_whileExpression hn).orElse <|
  (yields_caseExpression hn).orElse <| (yields_definition hn).orElse <| (yields_beginExpression hn).orElse <|
  (yields_callWithParentheses hn).orElse yields_name

theorem yields_indexed : Yields (indexed nested) Term.Legible :=
  (yields_primary hn).bind fun _ hb => (Yields.many (.token fun _ => .token fun _ => (hn .expression).bind fun _ ht =>
    .token fun _ => .token fun _ => .pure ht)).bind fun _ hps => .pure (Term.legible_foldl_index hb hps)

theorem yields_negation : Yields (negation nested) Term.Legible :=
  .token fun _ => .token fun _ => (hn .negated).bind fun _ ht => .pure ht

theorem yields_negated : Yields (negated nested) Term.Legible := (yields_negation hn).orElse (yields_indexed hn)

theorem yields_power {base : Parser Term} (hb : Yields base Term.Legible) : Yields (power nested base) Term.Legible := by
  refine hb.bind fun b hb => (Yields.optional (.token fun _ => .token fun _ => hn .signed)).bind fun e? he => ?_
  cases e? with
  | none => exact .pure hb
  | some e => exact .pure ⟨hb, he e rfl⟩

theorem yields_minus : Yields (minus nested) Term.Legible := .token fun _ => (hn .signed).bind fun _ ht => .pure ht

theorem yields_signed : Yields (signed nested) Term.Legible := (yields_minus hn).orElse (yields_power hn (yields_negated hn))

/-! ## Expressions and statements -/

omit hn in
theorem yields_leftChain {operator : Parser Connective} {operand : Parser Term} (hp : Yields operand Term.Legible) :
    ∀ (bound : Nat) {left : Term}, left.Legible → Yields (leftChain operator operand bound left) Term.Legible
  | 0, _, hl => .pure hl
  | bound + 1, left, hl => by
    rw [leftChain_succ]
    refine .token fun op? => ?_
    cases op? with
    | none => exact .pure hl
    | some op => exact hp.bind fun right hr => yields_leftChain hp bound ⟨hl, hr⟩

omit hn in
theorem yields_chain {operand : Parser Term} (hp : Yields operand Term.Legible) : ∀ (ls : List Level) {first : Parser Term},
    Yields first Term.Legible → Yields (chain operand ls first) Term.Legible
  | [], _, hf => hf
  | _ :: tighter, _, hf => (yields_chain hp tighter hf).bind fun _ hl c =>
    yields_leftChain (yields_chain hp tighter hp) c.rest.length hl c

theorem yields_expressionFrom {first : Parser Term} (hf : Yields first Term.Legible) :
    Yields (expressionFrom nested first) Term.Legible := by
  refine (yields_chain (yields_signed hn) levels hf).bind fun test ht => .token fun mark? => ?_
  cases mark? with
  | none => exact .pure ht
  | some _ =>
    exact (hn .expression).bind fun _ hy => .token fun _ => .token fun _ => (hn .expression).bind fun _ hno =>
      .pure ⟨ht, hy, hno⟩

theorem yields_assigned {target : Term} (ht : target.Legible) :
    Yields (assignment nested target <|> compoundAssignment nested target) Term.Legible := by
  refine .orElse (.token fun _ => .token fun _ => .token fun _ => (hn .value).bind fun v hv => .ofOption fun t h => ?_)
    (.token fun op => .token fun _ => (hn .value).bind fun v hv => .ofOption fun t h => ?_)
  · cases target <;> simp only [Term.assign?, Option.some.injEq, reduceCtorEq] at h <;> subst h
    · exact hv
    · exact ⟨ht.1, ht.2, hv⟩
  · cases target <;> simp only [Term.update?, Option.some.injEq, reduceCtorEq] at h <;> subst h
    · exact hv
    · exact ⟨ht.1, ht.2, hv⟩

theorem yields_commandCall : Yields (commandCall nested) Term.Legible :=
  .token fun _ => .token fun _ => .token fun _ => .token fun _ => (Yields.sepBy1 (.token fun _ => hn .value)).bind
    fun _ hargs => .pure (legibleAll_iff.mpr hargs)

theorem yields_value : Yields (value nested) Term.Legible := by
  intro c t c'' hdone
  unfold value at hdone
  split at hdone
  · next target c' hi =>
    have ht : target.Legible := yields_indexed hn c target c' hi
    simp only at hdone
    split at hdone
    · next t' c₁ ha =>
      obtain ⟨rfl, rfl⟩ := Reply.done.inj hdone
      exact yields_assigned hn ht c' _ _ ha
    · cases hdone
    · split at hdone
      · next t' c₁ hcall =>
        obtain ⟨rfl, rfl⟩ := Reply.done.inj hdone
        exact yields_commandCall hn c _ _ hcall
      · cases hdone
      · exact yields_expressionFrom hn (yields_power hn (.pure ht)) c' t c'' hdone
  · exact yields_expressionFrom hn ((yields_minus hn).orElse (yields_power hn (yields_negation hn))) c t c'' hdone
  · cases hdone

theorem yields_modifier : Yields (modifier nested) fun m => m.2.Legible :=
  .token fun _ => (hn .expression).bind fun _ ht => .pure ht

theorem yields_statement : Yields (statement nested) Term.Legible :=
  (yields_value hn).bind fun _ hb => (Yields.many (yields_modifier hn)).bind fun _ hms =>
    .pure (Term.legible_foldl_modified hb hms)

theorem yields_block : Yields (block nested) Term.Legible :=
  .token fun _ => (Yields.optional ((Yields.sepBy1 (yields_statement hn)).mono fun _ h => legibleAll_iff.mpr h)).bind
    fun _ h => .token fun _ => .pure (legible_getD_nil h)

theorem yields_rule : ∀ p, Yields (rule nested p) Term.Legible
  | .expression => yields_expressionFrom hn (yields_signed hn)
  | .negated => yields_negated hn
  | .signed => yields_signed hn
  | .value => yields_value hn
  | .statement => yields_statement hn
  | .block => yields_block hn

end

/-- Each literal of what is read as a phrase has a text. -/
theorem yields_phrase : ∀ depth p, Yields (phrase depth p) Term.Legible
  | 0, _ => .giveUp
  | depth + 1, p => yields_rule (yields_phrase depth) p

/-! ## Programs -/

/-- Each literal of the tree of a program has a text. -/
theorem legible_of_parseProgram {source filename : String} {known : List String} {counter next : Nat} {tree : Node}
    (h : parseProgram source filename known counter = .ok (tree, next)) : tree.Legible := by
  obtain ⟨t, hread, rfl⟩ := parseProgram_eq_ok h
  have ht : t.Legible := by
    unfold readProgram readWhole at hread
    simp only at hread
    split at hread
    · cases hread
    · cases hread
    · next hdone =>
      split at hread
      · obtain rfl := Except.ok.inj hread
        exact yields_phrase _ _ _ _ _ hdone
      · cases hread
  exact Node.legible_resolve (legible_desugar ht counter) known

end MinRuby.Syntax
