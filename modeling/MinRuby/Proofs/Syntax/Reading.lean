import MinRuby.Syntax.Token

/-!
# What a parser has read

`Reads p P` says of every success of the parser `p` that the text it has read and the value it has
given satisfy `P`. One rule for each way to put parsers together carries such a statement from the
parts of a phrase to the phrase.

* `Reads.bind`, `Reads.orElse`, `Reads.many` — the rules for sequence, choice and repetition.
* `reads_identifier` — a name is read as it is spelled, after blanks, and is an identifier.
-/

namespace MinRuby.Syntax

open MinRuby.Text (isAsciiWord)

/-! ## Places in a text -/

namespace Cursor

theorem rest_advance (c : Cursor) : c.advance.rest = c.rest.drop 1 := by
  unfold advance
  split
  · next h => simp [h]
  · next h => simp [h]

theorem rest_skip (n : Nat) (c : Cursor) : (c.skip n).rest = c.rest.drop n := by
  induction n generalizing c with
  | zero => rfl
  | succ n ih => rw [skip, ih, rest_advance, List.drop_drop, Nat.add_comm]

/-- What is skipped and what is left make up the text at a cursor. -/
theorem take_append_rest_skip (n : Nat) (c : Cursor) : c.rest.take n ++ (c.skip n).rest = c.rest := by
  rw [rest_skip, List.take_append_drop]

end Cursor

namespace Parser

variable {α β : Type} {p q : Parser α} {P Q : List Char → α → Prop}

/-- Whenever `p` succeeds, what it has read and the value it has given satisfy `P`. -/
def Reads (p : Parser α) (P : List Char → α → Prop) : Prop :=
  ∀ c a c', p c = .done a c' → ∃ w, c.rest = w ++ c'.rest ∧ P w a

/-- Nothing is claimed but that a prefix of the text is read. -/
abbrev ReadsPrefix (p : Parser α) : Prop := Reads p fun _ _ => True

/-! ## Rules -/

namespace Reads

theorem mono (h : Reads p P) (hPQ : ∀ w a, P w a → Q w a) : Reads p Q := by
  intro c a c' hc
  obtain ⟨w, hw, hP⟩ := h c a c' hc
  exact ⟨w, hw, hPQ w a hP⟩

theorem pure {a : α} (h : P [] a) : Reads (Pure.pure a : Parser α) P := by
  rintro c a' c' hc
  obtain ⟨rfl, rfl⟩ : a = a' ∧ c = c' := by simpa [Pure.pure, Parser.pure] using hc
  exact ⟨[], rfl, h⟩

theorem fail : Reads (Parser.fail : Parser α) P := by
  intro c a c' hc
  cases hc

theorem giveUp {r : Surrender} : Reads (Parser.giveUp r : Parser α) P := by
  intro c a c' hc
  cases hc

theorem bind {f : α → Parser β} {R : List Char → β → Prop} (hp : Reads p P)
    (hf : ∀ w a, P w a → Reads (f a) fun w' b => R (w ++ w') b) : Reads (p >>= f) R := by
  intro c b c'' hc
  change Parser.bind p f c = _ at hc
  unfold Parser.bind at hc
  split at hc
  · next a c' hpc =>
    obtain ⟨w, hw, hP⟩ := hp c a c' hpc
    obtain ⟨w', hw', hR⟩ := hf w a hP c' b c'' hc
    exact ⟨w ++ w', by rw [hw, hw', List.append_assoc], hR⟩
  · cases hc
  · cases hc

/-- A sequence of which only the second part matters. -/
theorem after {f : α → Parser β} {R : List Char → β → Prop} (hp : ReadsPrefix p)
    (hf : ∀ a, Reads (f a) fun w' b => ∀ w, R (w ++ w') b) : Reads (p >>= f) R :=
  hp.bind fun w a _ => (hf a).mono fun _ _ h => h w

theorem orElse (hp : Reads p P) (hq : Reads q P) : Reads (p <|> q) P := by
  intro c a c' hc
  change Parser.orElse p (fun _ => q) c = _ at hc
  unfold Parser.orElse at hc
  split at hc
  · next a' c'' hpc =>
    obtain ⟨rfl, rfl⟩ : a' = a ∧ c'' = c' := by simpa using hc
    exact hp c _ _ hpc
  · exact hq c a c' hc
  · cases hc

theorem optional {R : List Char → Option α → Prop} (hp : Reads p P) (hnone : R [] none)
    (hsome : ∀ w a, P w a → R w (some a)) : Reads (Parser.optional p) R := by
  intro c a? c' hc
  unfold Parser.optional at hc
  split at hc
  · next a c'' hpc =>
    obtain ⟨rfl, rfl⟩ : some a = a? ∧ c'' = c' := by simpa using hc
    obtain ⟨w, hw, hP⟩ := hp c a c'' hpc
    exact ⟨w, hw, hsome w a hP⟩
  · obtain ⟨rfl, rfl⟩ : none = a? ∧ c = c' := by simpa using hc
    exact ⟨[], rfl, hnone⟩
  · cases hc

theorem notAhead : Reads (Parser.notAhead p) fun w _ => w = [] := by
  intro c a c' hc
  unfold Parser.notAhead at hc
  split at hc
  · cases hc
  · obtain ⟨-, rfl⟩ : () = a ∧ c = c' := by simpa using hc
    exact ⟨[], rfl, rfl⟩
  · cases hc

/-- A repetition satisfies what the empty one does and one more round preserves. -/
theorem upTo {R : List Char → List α → Prop} (hp : Reads p P) (hnil : R [] [])
    (hcons : ∀ w a w' as, P w a → R w' as → R (w ++ w') (a :: as)) (bound : Nat) :
    Reads (Parser.upTo p bound) R := by
  induction bound with
  | zero => exact pure hnil
  | succ bound ih =>
    intro c as c'' hc
    unfold Parser.upTo at hc
    split at hc
    · next a c' hpc =>
      obtain ⟨w, hw, hP⟩ := hp c a c' hpc
      split at hc
      · next as' c₃ hrest =>
        obtain ⟨rfl, rfl⟩ : a :: as' = as ∧ c₃ = c'' := by simpa using hc
        obtain ⟨w', hw', hR⟩ := ih c' as' c₃ hrest
        exact ⟨w ++ w', by rw [hw, hw', List.append_assoc], hcons w a w' as' hP hR⟩
      · cases hc
      · cases hc
    · obtain ⟨rfl, rfl⟩ : [] = as ∧ c = c'' := by simpa using hc
      exact ⟨[], rfl, hnil⟩
    · cases hc

theorem many {R : List Char → List α → Prop} (hp : Reads p P) (hnil : R [] [])
    (hcons : ∀ w a w' as, P w a → R w' as → R (w ++ w') (a :: as)) : Reads (Parser.many p) R :=
  fun c => upTo hp hnil hcons c.rest.length c

end Reads

theorem reads_notAhead : ReadsPrefix (notAhead p) := Reads.notAhead.mono fun _ _ _ => trivial

/-! ## Tokens -/

/-- A parser that takes a number of characters reads a prefix. -/
theorem reads_of_skip {n : Cursor → Nat} (h : ∀ c a c', p c = .done a c' → c' = c.skip (n c))
    (hP : ∀ c a c', p c = .done a c' → P (c.rest.take (n c)) a) : Reads p P := by
  intro c a c' hc
  refine ⟨c.rest.take (n c), ?_, hP c a c' hc⟩
  rw [h c a c' hc, Cursor.take_append_rest_skip]

theorem reads_blanks : ReadsPrefix blanks :=
  reads_of_skip (n := fun c => (c.rest.takeWhile (· == ' ')).length)
    (by
      intro c a c' hc
      simpa [blanks, Cursor.skipBlanks, eq_comm] using hc)
    fun _ _ _ _ => trivial

theorem reads_adjacent (text : List Char) : ReadsPrefix (adjacent text) :=
  reads_of_skip (n := fun _ => text.length)
    (by
      intro c a c' hc
      unfold adjacent at hc
      split at hc
      · simpa [eq_comm] using hc
      · cases hc)
    fun _ _ _ _ => trivial

theorem reads_symbol (text : String) : ReadsPrefix (symbol text) :=
  reads_blanks.after fun _ => (reads_adjacent _).mono fun _ _ _ _ => trivial

theorem reads_keyword (word : String) : ReadsPrefix (keyword word) := by
  refine reads_blanks.after fun _ => ?_
  refine reads_of_skip (n := fun _ => word.toList.length) ?_ fun _ _ _ _ _ => trivial
  intro c a c' hc
  simp only at hc
  split at hc
  · simpa [eq_comm] using hc
  · cases hc

/-- The longest prefix whose characters satisfy a predicate. -/
theorem reads_takeWhile (r : Char → Bool) :
    Reads (takeWhile r) fun w a => w = a ∧ ∀ c ∈ a, r c = true := by
  refine reads_of_skip (n := fun c => (c.rest.takeWhile r).length) ?_ ?_
  · intro c a c' hc
    obtain ⟨-, h⟩ : c.rest.takeWhile r = a ∧ c.skip (c.rest.takeWhile r).length = c' := by
      simpa [takeWhile] using hc
    exact h.symm
  · intro c a c' hc
    obtain ⟨rfl, -⟩ : c.rest.takeWhile r = a ∧ c.skip (c.rest.takeWhile r).length = c' := by
      simpa [takeWhile] using hc
    refine ⟨?_, List.all_eq_true.mp List.all_takeWhile⟩
    exact (List.prefix_iff_eq_take.mp (List.takeWhile_prefix r)).symm

theorem reads_satisfying (r : Char → Bool) :
    Reads (satisfying r) fun w a => w = [a] ∧ r a = true := by
  intro c a c' hc
  unfold satisfying at hc
  split at hc
  · next x rest hrest =>
    split at hc
    · next hx =>
      obtain ⟨rfl, rfl⟩ : x = a ∧ c.advance = c' := by simpa using hc
      exact ⟨[x], by rw [Cursor.rest_advance, hrest]; rfl, rfl, hx⟩
    · cases hc
  · cases hc

end Parser

/-! ## Names -/

/-- The character may start a name. -/
def startsName (c : Char) : Bool := c.isAlpha || c == '_'

/-- A text that a program can write as a name: a letter or an underscore, then letters, digits and
underscores, then a question or exclamation mark at most. -/
def IsIdentifier (s : String) : Prop :=
  ∃ first more mark, s.toList = first :: more ++ mark ∧ startsName first = true ∧
    (∀ c ∈ more, isAsciiWord c = true) ∧ (mark = [] ∨ mark = ['?'] ∨ mark = ['!'])

namespace Parser

theorem reads_nameMark : Reads nameMark fun w a => w = [a] ∧ (a = '?' ∨ a = '!') := by
  refine (reads_satisfying _).bind fun w a h => ?_
  refine Reads.notAhead.bind fun w' _ hw' => Reads.pure ?_
  obtain ⟨rfl, ha⟩ := h
  subst hw'
  simpa using ha

/-- A name is an identifier and is read as it is spelled, after blanks. -/
theorem reads_identifier :
    Reads identifier fun w x => IsIdentifier x ∧ ∃ gap, w = gap ++ x.toList := by
  refine Reads.notAhead.bind fun w₀ _ hw₀ => ?_
  refine reads_blanks.bind fun gap _ _ => ?_
  refine (reads_satisfying _).bind fun w₁ first h₁ => ?_
  refine (reads_takeWhile _).bind fun w₂ more h₂ => ?_
  refine (reads_nameMark.optional (R := fun w m => w = m.toList ∧ (m.toList = [] ∨ m.toList = ['?'] ∨
    m.toList = ['!'])) (by simp) ?_).bind fun w₃ mark h₃ => Reads.pure ?_
  · rintro w a ⟨rfl, rfl | rfl⟩ <;> simp
  · obtain ⟨rfl, hfirst⟩ := h₁
    obtain ⟨rfl, hmore⟩ := h₂
    obtain ⟨rfl, hmark⟩ := h₃
    subst hw₀
    refine ⟨⟨first, _, mark.toList, by simp, hfirst, hmore, hmark⟩, gap, by simp⟩

theorem reads_newlines : ReadsPrefix newlines :=
  (Reads.many (reads_symbol "\n") (R := fun _ _ => True) trivial fun _ _ _ _ _ _ => trivial).after
    fun _ => Reads.pure fun _ => trivial

theorem reads_separator : ReadsPrefix separator := (reads_symbol "\n").orElse (reads_symbol ";")

theorem reads_separators : ReadsPrefix separators :=
  (Reads.many reads_separator (R := fun _ _ => True) trivial fun _ _ _ _ _ _ => trivial).after
    fun _ => Reads.pure fun _ => trivial

theorem reads_separators1 : ReadsPrefix separators1 :=
  reads_separator.after fun _ => reads_separators.mono fun _ _ _ _ => trivial

theorem reads_bodyStart (word : String) : ReadsPrefix (bodyStart word) :=
  (reads_separators.after fun _ => (reads_keyword word).mono fun _ _ _ _ => trivial).orElse
    reads_separators1

theorem reads_comma : ReadsPrefix comma :=
  (reads_symbol ",").after fun _ => reads_newlines.mono fun _ _ _ _ => trivial

/-! ## Literals -/

theorem reads_optional {s : Parser α} (hs : ReadsPrefix s) : ReadsPrefix (Parser.optional s) :=
  Reads.optional hs trivial fun _ _ _ => trivial

theorem reads_fraction : ReadsPrefix fraction :=
  (reads_adjacent _).after fun _ => ((reads_satisfying _).mono fun _ _ _ => trivial).after fun _ =>
    ((reads_takeWhile _).mono fun _ _ _ => trivial).after fun _ => Reads.pure fun _ _ _ => trivial

theorem reads_exponent : ReadsPrefix exponent :=
  ((reads_satisfying _).mono fun _ _ _ => trivial).after fun _ =>
    (reads_optional ((reads_satisfying _).mono fun _ _ _ => trivial)).after fun _ =>
      ((reads_satisfying _).mono fun _ _ _ => trivial).after fun _ =>
        ((reads_takeWhile _).mono fun _ _ _ => trivial).after fun _ =>
          Reads.pure fun _ _ _ _ => trivial

theorem reads_numeral : ReadsPrefix numeral := by
  refine reads_blanks.after fun _ => ((reads_satisfying _).mono fun _ _ _ => trivial).after fun first => ?_
  refine ((reads_takeWhile _).mono fun _ _ _ => trivial).after fun more => ?_
  refine (reads_optional reads_fraction).after fun fraction? => ?_
  refine (reads_optional reads_exponent).after fun exponent? => ?_
  split
  · split
    · exact Reads.giveUp
    · exact Reads.pure fun _ _ _ _ _ => trivial
  · exact Reads.pure fun _ _ _ _ _ => trivial

theorem reads_quotedLiteral (quote : Char) : ReadsPrefix (quotedLiteral quote) := by
  refine reads_blanks.after fun _ => (reads_adjacent _).after fun _ => ?_
  intro c body c' hc
  simp only at hc
  split at hc
  · next body' _ =>
    obtain ⟨rfl, rfl⟩ : body' = body ∧ c.skip (body'.length + 1) = c' := by simpa using hc
    exact ⟨_, (Cursor.take_append_rest_skip _ c).symm, fun _ _ => trivial⟩
  · cases hc

theorem reads_stringLiteral : ReadsPrefix stringLiteral :=
  ((reads_quotedLiteral _).after fun _ => Reads.pure fun _ => trivial).orElse
    ((reads_quotedLiteral _).after fun _ => Reads.pure fun _ => trivial)

end Parser

end MinRuby.Syntax
