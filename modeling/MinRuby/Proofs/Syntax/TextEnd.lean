import MinRuby.Proofs.Syntax.Lead

/-!
# The end of a text

Where a text has ended nothing can be read that takes a character. A phrase fails there, or it runs out of levels; so
does a value of which there is only the sign.

* `Parser.Advances` — what takes a character at least, and fails at the end of a text.
* `idle_phrase_of_end`, `idle_value_of_sign` — phrases without an operand.
-/

namespace MinRuby.Syntax

open MinRuby.Syntax.Parser

/-- Fails, or runs out of levels. -/
def Reply.Idle {α : Type} (r : Reply α) : Prop := r = .fail ∨ r = .giveUp .depth

namespace Parser

variable {α β : Type} {p q : Parser α} {f : α → Parser β} {c : Cursor}

theorem idle_bind (h : (p c).Idle) : ((p >>= f) c).Idle := h.imp bind_of_fail bind_of_giveUp

theorem idle_orElse (hp : (p c).Idle) (hq : (q c).Idle) : ((p <|> q) c).Idle := by
  rcases hp with hp | hp
  · rwa [orElse_of_fail hp]
  · exact .inr (orElse_of_giveUp hp)

theorem idle_chain {operand first : Parser Term} (h : (first c).Idle) : ∀ ls : List Level, (chain operand ls first c).Idle
  | [] => h
  | _ :: tighter => idle_bind (idle_chain h tighter)

/-- What takes a character at least, and fails where the text has ended. -/
structure Advances (p : Parser α) : Prop where
  takes : Takes p
  fails : ∀ c, c.rest = [] → p c = .fail

namespace Advances

theorem bind (h : Advances p) (hf : ∀ a, ReadsPrefix (f a)) : Advances (p >>= f) :=
  ⟨h.takes.bind hf, fun c hc => bind_of_fail (h.fails c hc)⟩

theorem orElse (hp : Advances p) (hq : Advances q) : Advances (p <|> q) :=
  ⟨hp.takes.orElse hq.takes, fun c hc => (orElse_of_fail (hp.fails c hc)).trans (hq.fails c hc)⟩

theorem length_lt (h : Advances p) {a : α} {c' : Cursor} (hdone : p c = .done a c') : c'.rest.length < c.rest.length := by
  obtain ⟨w, hw, hne⟩ := h.takes c a c' hdone
  have hpos := List.length_pos_iff.mpr hne
  rw [hw, List.length_append]
  omega

theorem rest_ne_nil (h : Advances p) (hc : p c ≠ .fail) : c.rest ≠ [] := fun hend => hc (h.fails c hend)

/-- More rounds than there are characters make no difference. -/
theorem upTo_eq (h : Advances p) :
    ∀ (k m : Nat) (c : Cursor), c.rest.length ≤ k → c.rest.length ≤ m → upTo p k c = upTo p m c := by
  intro k
  induction k with
  | zero =>
    intro m c hk _
    have hfail := h.fails c (List.length_eq_zero_iff.mp (Nat.le_zero.mp hk))
    rw [upTo_of_fail hfail, upTo_of_fail hfail]
  | succ k ih =>
    intro m c hk hm
    by_cases hfail : p c = .fail
    · rw [upTo_of_fail hfail, upTo_of_fail hfail]
    obtain ⟨m, rfl⟩ : ∃ m', m = m' + 1 := ⟨m - 1, by have := List.length_pos_iff.mpr (h.rest_ne_nil hfail); omega⟩
    cases hdone : p c with
    | done a c' =>
      have hlt := h.length_lt hdone
      rw [upTo_of_done hdone, upTo_of_done hdone]
      exact bind_congr (ih m c' (by omega) (by omega))
    | fail => exact absurd hdone hfail
    | giveUp r => simp only [upTo, hdone]

/-- The first of several rounds. -/
theorem many_of_done (h : Advances p) {a : α} {c' : Cursor} (hdone : p c = .done a c') :
    many p c = (do return a :: (← many p) : Parser (List α)) c' := by
  have hlt := h.length_lt hdone
  rw [many, h.upTo_eq c.rest.length (c.rest.length - 1 + 1) c (Nat.le_refl _) (by omega), upTo_of_done hdone]
  exact bind_congr (h.upTo_eq _ _ c' (by omega) (Nat.le_refl _))

/-- Rounds end where no further one can be read. -/
theorem fails_behind_many (h : Advances p) {as : List α} {c' : Cursor} (hmany : many p c = .done as c') : p c' = .fail := by
  have hrounds : ∀ (k : Nat) (c : Cursor) (as : List α), c.rest.length ≤ k → upTo p k c = .done as c' → p c' = .fail := by
    intro k
    induction k with
    | zero =>
      intro c as hk hdone
      obtain ⟨-, rfl⟩ := Reply.done.inj hdone
      exact h.fails c (List.length_eq_zero_iff.mp (Nat.le_zero.mp hk))
    | succ k ih =>
      intro c as hk hdone
      cases hfirst : p c with
      | done a c₁ =>
        have hlt := h.length_lt hfirst
        rw [upTo_of_done hfirst] at hdone
        cases hmore : upTo p k c₁ with
        | done as' c₂ =>
          rw [bind_of_done hmore] at hdone
          obtain ⟨-, rfl⟩ := Reply.done.inj hdone
          exact ih c₁ as' (by omega) hmore
        | fail => exact absurd hmore (upTo_ne_fail p k c₁)
        | giveUp r =>
          rw [bind_of_giveUp hmore] at hdone
          cases hdone
      | fail =>
        rw [upTo_of_fail hfirst] at hdone
        obtain ⟨-, rfl⟩ := Reply.done.inj hdone
        exact hfirst
      | giveUp r =>
        simp only [upTo, hfirst] at hdone
        cases hdone
  exact hrounds _ c as (Nat.le_refl _) hmany

/-- More operators than there are characters make no difference. -/
theorem leftChain_eq {operator : Parser Connective} {operand : Parser Term} (h : Advances operator) (ho : ReadsPrefix operand) :
    ∀ (k m : Nat) (left : Term) (c : Cursor), c.rest.length ≤ k → c.rest.length ≤ m →
      leftChain operator operand k left c = leftChain operator operand m left c := by
  intro k
  induction k with
  | zero =>
    intro m left c hk _
    have hfail := h.fails c (List.length_eq_zero_iff.mp (Nat.le_zero.mp hk))
    rw [leftChain_of_fail hfail, leftChain_of_fail hfail]
  | succ k ih =>
    intro m left c hk hm
    by_cases hfail : operator c = .fail
    · rw [leftChain_of_fail hfail, leftChain_of_fail hfail]
    obtain ⟨m, rfl⟩ : ∃ m', m = m' + 1 := ⟨m - 1, by have := List.length_pos_iff.mpr (h.rest_ne_nil hfail); omega⟩
    cases hdone : operator c with
    | done op c₁ =>
      have hlt := h.length_lt hdone
      simp only [leftChain, hdone]
      cases hright : operand c₁ with
      | done right c₂ =>
        obtain ⟨w, hw, -⟩ := ho c₁ right c₂ hright
        have hle : c₂.rest.length ≤ c₁.rest.length := by rw [hw, List.length_append]; omega
        exact ih m _ c₂ (by omega) (by omega)
      | fail => rfl
      | giveUp r => rfl
    | fail => exact absurd hdone hfail
    | giveUp r => simp only [leftChain, hdone]

theorem symbol {o : String} (ho : o.toList.isEmpty = false) : Advances (symbol o) where
  takes := takes_symbol (by simpa using ho)
  fails _ hc := symbol_of_end (Cursor.rest_skipBlanks_of_end hc) ho

theorem keyword {word : String} (hword : word.toList.isEmpty = false) : Advances (keyword word) where
  takes := takes_keyword (by simpa using hword)
  fails _ hc := keyword_of_end (Cursor.rest_skipBlanks_of_end hc) hword

theorem adjacent (x : Char) : Advances (adjacent [x]) where
  takes := takes_adjacent (by simp)
  fails _ hc := adjacent_of_head (by rw [hc]; rfl)

theorem separator : Advances separator := (symbol (by decide)).orElse (symbol (by decide))

theorem separators1 : Advances separators1 := separator.bind fun _ => reads_separators

theorem comma : Advances comma := (symbol (by decide)).bind fun _ => reads_newlines

theorem operator {level : Level} (h : ∀ o ∈ level, o.1.toList.isEmpty = false) : Advances level.operator := by
  induction level with
  | nil => exact ⟨Reads.fail, fun _ _ => rfl⟩
  | cons o level ih =>
    have hsymbol := symbol (h o List.mem_cons_self)
    have hspelling : Advances (spelling o.1) := by
      unfold spelling
      split
      · next heq => exact heq ▸ Advances.bind (heq ▸ hsymbol) fun _ => reads_notAhead
      · exact hsymbol
    have hfirst := hspelling.bind fun _ => readsPrefix_bind reads_newlines fun _ => Reads.pure (a := o.2) trivial
    exact hfirst.orElse (ih fun o' ho' => h o' (List.mem_cons_of_mem o ho'))

end Advances

end Parser

/-! ## Phrases -/

/-- The signs and the mark of a negation. -/
def signs : List Char := ['-', '+', '!']

/-- Nothing but a sign is left of the text. -/
def Cursor.AtSign (c : Cursor) : Prop := ∃ x ∈ signs, c.skipBlanks.rest = [x]

theorem mem_signs {x : Char} (h : x ∈ signs) : x = '-' ∨ x = '+' ∨ x = '!' := by simpa [signs] using h

theorem Cursor.AtSign.lead {c : Cursor} (h : c.AtSign) : c.lead ∈ signs.map Lead.mark := by
  obtain ⟨x, hx, hrest⟩ := h
  have hmark : Lead.ofChar x = .mark x := by rcases mem_signs hx with rfl | rfl | rfl <;> decide
  rw [lead_of_mark hrest hmark]
  exact List.mem_map_of_mem hx

section

variable {n : Nat} {c : Cursor}

/-- At the end of a text there is no phrase but an empty block. -/
theorem idle_phrase_of_end {p : Phrase} (hp : p ≠ .block) (h : c.rest = []) : (phrase n p c).Idle := by
  cases n with
  | zero => exact .inr rfl
  | succ n =>
    have hled : LedBy (rule (phrase n) p) valueLeads := by
      cases p with
      | expression => exact ledBy_expressionFrom ledBy_signed
      | negated => exact ledBy_negated.mono (by decide)
      | signed => exact ledBy_signed
      | value => exact ledBy_value
      | statement => exact ledBy_statement
      | block => exact absurd rfl hp
    exact .inl (hled.fails (by rw [lead_of_end (Cursor.rest_skipBlanks_of_end h)]; decide))

/-- A sign without an operand is no value. -/
theorem idle_value_of_sign (h : c.AtSign) : (phrase n .value c).Idle := by
  cases n with
  | zero => exact .inr rfl
  | succ n =>
    have hindexed : indexed (phrase n) c = .fail :=
      ledBy_indexed.fails ((by decide : ∀ l ∈ signs.map Lead.mark, l ∉ operandLeads) _ h.lead)
    obtain ⟨x, -, hrest⟩ := h
    have hbehind {z : Char} {o : String} (ho : o.toList = [z]) {q : Parser Term} (hq : (q ⟨some z, []⟩).Idle) :
        ((do symbol o; q : Parser Term) c).Idle := by
      by_cases hx : x = z
      · subst hx
        have hread : symbol o c = .done () ⟨some x, []⟩ := symbol_of_rest (w := []) ho (by rw [hrest, ho]; rfl)
        rwa [bind_of_done hread]
      · exact .inl (bind_of_fail (symbol_of_ne hrest (by rw [ho]; simpa using Ne.symm hx)))
    have hminus : (minus (phrase n) c).Idle := hbehind rfl (idle_bind (idle_phrase_of_end nofun rfl))
    have hnegation : (negation (phrase n) c).Idle := by
      refine hbehind rfl ?_
      rw [bind_of_done (notAhead_of_fail (adjacent_of_head rfl))]
      exact idle_bind (idle_phrase_of_end nofun rfl)
    show (value (phrase n) c).Idle
    rw [value_of_no_operand hindexed]
    exact idle_bind (idle_chain (idle_orElse hminus (idle_bind (idle_orElse hnegation (.inl hindexed)))) levels)

end

end MinRuby.Syntax
