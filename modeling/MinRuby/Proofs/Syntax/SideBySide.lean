import MinRuby.Proofs.Syntax.Hereditary

/-!
# Two texts read side by side

Two texts are read alike from places that are in a relation, if the tokens are: every phrase has the same outcome in
both, and the places behind it are in the relation again. Where the levels run out in the first text, the outcome in
the second one does not matter, as the levels of a whole phrase never do.

* `Reply.Refines` — the same outcome up to the relation.
* `hereditary_respects` — from tokens to phrases.
-/

namespace MinRuby.Syntax

open MinRuby.Syntax.Parser

/-- The same outcome, the places behind it in the relation, or levels that have run out. -/
inductive Reply.Refines (R : Cursor → Cursor → Prop) {α : Type} : Reply α → Reply α → Prop where
  | done (a : α) {c c' : Cursor} (h : R c c') : Refines R (.done a c) (.done a c')
  | fail : Refines R .fail .fail
  | giveUp (r : Surrender) : Refines R (.giveUp r) (.giveUp r)
  | depth (r : Reply α) : Refines R (.giveUp .depth) r

/-- The parser does the same at places in the relation. -/
def Parser.Respects (R : Cursor → Cursor → Prop) {α : Type} (p : Parser α) : Prop :=
  ∀ c c', R c c' → (p c).Refines R (p c')

namespace Reply.Refines

variable {R : Cursor → Cursor → Prop} {α β : Type}
variable {r r' : Reply α} {p q : Parser α} {f g : α → Parser β} {c c' : Cursor}

theorem of_done (h : r.Refines R r') {a : α} (hdone : r = .done a c) : ∃ c', r' = .done a c' ∧ R c c' := by
  subst hdone
  cases h with
  | done a h => exact ⟨_, rfl, h⟩

theorem of_idle (h : r.Idle) : r.Refines R .fail := by
  rcases h with rfl | rfl
  · exact .fail
  · exact .depth _

theorem bind (h : (p c).Refines R (q c')) (hf : ∀ a c₁ c₁', R c₁ c₁' → (f a c₁).Refines R (g a c₁')) :
    ((p >>= f) c).Refines R ((q >>= g) c') := by
  show (Parser.bind p f c).Refines R (Parser.bind q g c')
  unfold Parser.bind
  generalize p c = r, q c' = r' at h
  cases h with
  | done a h => exact hf a _ _ h
  | fail => exact .fail
  | giveUp r => exact .giveUp r
  | depth r => exact .depth _

theorem orElse (hp : (p c).Refines R (p c')) (hq : (q c).Refines R (q c')) : ((p <|> q) c).Refines R ((p <|> q) c') := by
  show (Parser.orElse p (fun _ => q) c).Refines R (Parser.orElse p (fun _ => q) c')
  unfold Parser.orElse
  generalize p c = r, p c' = r' at hp
  cases hp with
  | done a h => exact .done a h
  | fail => exact hq
  | giveUp r => exact .giveUp r
  | depth r => exact .depth _

theorem notAhead (h : (p c).Refines R (p c')) (hc : R c c') : (notAhead p c).Refines R (notAhead p c') := by
  unfold Parser.notAhead
  generalize p c = r, p c' = r' at h
  cases h with
  | done a _ => exact .fail
  | fail => exact .done () hc
  | giveUp r => exact .giveUp r
  | depth r => exact .depth _

end Reply.Refines

namespace Parser.Respects

variable {R : Cursor → Cursor → Prop} {α β : Type} {p q : Parser α} {f : α → Parser β}

theorem pure (a : α) : Respects R (Pure.pure a : Parser α) := fun _ _ h => .done a h

theorem bind (hp : Respects R p) (hf : ∀ a, Respects R (f a)) : Respects R (p >>= f) :=
  fun c c' h => (hp c c' h).bind hf

theorem orElse (hp : Respects R p) (hq : Respects R q) : Respects R (p <|> q) := fun c c' h => (hp c c' h).orElse (hq c c' h)

theorem optional (hp : Respects R p) : Respects R (optional p) := by
  intro c c' h
  have hsame := hp c c' h
  unfold Parser.optional
  generalize p c = r, p c' = r' at hsame
  cases hsame with
  | done a h => exact .done _ h
  | fail => exact .done _ h
  | giveUp r => exact .giveUp r
  | depth r => exact .depth _

theorem notAhead (hp : Respects R p) : Respects R (notAhead p) := fun c c' h => (hp c c' h).notAhead h

theorem fork {q s : α → Parser β} {r e : Parser β} (hp : Respects R p) (hq : ∀ a, Respects R (q a)) (hr : Respects R r)
    (hs : ∀ a, Respects R (s a)) (he : Respects R e) : Respects R (fork p q r s e) := by
  intro c c' h
  have hsame := hp c c' h
  have hagain := hr c c' h
  unfold Parser.fork
  generalize p c = r₁, p c' = r₁' at hsame
  generalize r c = r₂, r c' = r₂' at hagain
  cases hsame with
  | @done a c₁ c₁' h =>
    have hnext := hq a c₁ c₁' h
    simp only
    generalize q a c₁ = r₃, q a c₁' = r₃' at hnext
    cases hnext with
    | done b h => exact .done b h
    | fail =>
      cases hagain with
      | done b h => exact .done b h
      | fail => exact hs a c₁ c₁' h
      | giveUp r => exact .giveUp r
      | depth r => exact .depth _
    | giveUp r => exact .giveUp r
    | depth r => exact .depth _
  | fail => exact he c c' h
  | giveUp r => exact .giveUp r
  | depth r => exact .depth _

theorem upTo (hp : Respects R p) (k : Nat) : Respects R (upTo p k) := by
  induction k with
  | zero => exact pure []
  | succ k ih =>
    intro c c' h
    have hsame := hp c c' h
    unfold Parser.upTo
    generalize p c = r, p c' = r' at hsame
    cases hsame with
    | @done a c₁ c₁' h =>
      have hmore := ih _ _ h
      simp only
      generalize Parser.upTo p k c₁ = r, Parser.upTo p k c₁' = r' at hmore
      cases hmore with
      | done as h => exact .done _ h
      | fail => exact .fail
      | giveUp r => exact .giveUp r
      | depth r => exact .depth _
    | fail => exact .done _ h
    | giveUp r => exact .giveUp r
    | depth r => exact .depth _

/-- The texts may differ in length: the rounds that the longer one allows are enough for both. -/
theorem many (hp : Respects R p) (ha : Advances p) : Respects R (many p) := by
  intro c c' h
  let k := max c.rest.length c'.rest.length
  have hsame := hp.upTo k c c' h
  rwa [ha.upTo_eq k c.rest.length c (Nat.le_max_left _ _) (Nat.le_refl _),
    ha.upTo_eq k c'.rest.length c' (Nat.le_max_right _ _) (Nat.le_refl _)] at hsame

theorem leftChain {operator : Parser Connective} {operand : Parser Term} (hr : Respects R operator) (ha : Advances operator)
    (ho : Respects R operand) (hreads : ReadsPrefix operand) (left : Term) :
    Respects R fun c => leftChain operator operand c.rest.length left c := by
  have hrounds (k : Nat) (left : Term) : Respects R (Syntax.leftChain operator operand k left) := by
    induction k generalizing left with
    | zero => exact pure left
    | succ k ih =>
      rw [leftChain_succ]
      refine hr.optional.bind fun op? => ?_
      cases op? with
      | none => exact pure left
      | some op => exact ho.bind fun right => ih (.binary op left right)
  intro c c' h
  let k := max c.rest.length c'.rest.length
  have hsame := hrounds k left c c' h
  rwa [ha.leftChain_eq hreads k c.rest.length left c (Nat.le_max_left _ _) (Nat.le_refl _),
    ha.leftChain_eq hreads k c'.rest.length left c' (Nat.le_max_right _ _) (Nat.le_refl _)] at hsame

end Parser.Respects

/-- What the tokens have to do for a relation between places to be respected. -/
structure TokensRespect (R : Cursor → Cursor → Prop) : Prop where
  blanks : Respects R blanks
  adjacent {text : List Char} : plain text → Respects R (adjacent text)
  satisfying {r : Char → Bool} : spares r → Respects R (satisfying r)
  takeWhile {r : Char → Bool} : spares r → Respects R (takeWhile r)
  keyword {word : String} : word ∈ keywords → Respects R (keyword word)
  quotedLiteral {quote : Char} : quote ∈ ['"', '\''] → Respects R (quotedLiteral quote)
  /-- The look-ahead in front of arguments may see a blank behind a sign in the second text only. -/
  noArgument (c c' : Cursor) : R c c' →
    (noArgument c).Refines R (noArgument c') ∨ c.AtSign ∧ noArgument c = .fail ∧ noArgument c' ≠ .fail

/-- Phrases respect what tokens do. -/
theorem hereditary_respects {R : Cursor → Cursor → Prop} (h : TokensRespect R) : Hereditary (Respects R) where
  pure := .pure
  fail _ _ _ := .fail
  giveUp _ _ _ _ := .giveUp _
  bind := .bind
  orElse := .orElse
  optional := .optional
  notAhead := .notAhead
  many := .many
  leftChain := .leftChain
  fork := .fork
  blanks := h.blanks
  adjacent := h.adjacent
  satisfying := h.satisfying
  takeWhile := h.takeWhile
  keyword := h.keyword
  quotedLiteral := h.quotedLiteral
  unsigned {α p} hp hsign c c' hc := by
    rcases h.noArgument c c' hc with hsame | ⟨hat, hnone, hsome⟩
    · exact (hsame.notAhead hc).bind fun _ => hp
    · rw [bind_of_done (notAhead_of_fail hnone)]
      cases hread : noArgument c' with
      | done u c₁ =>
        rw [bind_of_fail (notAhead_of_done hread)]
        exact .of_idle (hsign c hat)
      | fail => exact absurd hread hsome
      | giveUp r => exact absurd hread (persists_noArgument c' r)

end MinRuby.Syntax
