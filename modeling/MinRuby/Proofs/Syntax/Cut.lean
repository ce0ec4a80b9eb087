import Mathlib.Data.List.Find
import MinRuby.Proofs.Syntax.Lead

/-!
# Texts that break off

A text that breaks off at the end of a line, and the text that goes on there. Up to the break both are read alike as
long as a parser does not come upon it: what it does there in the longer text cannot be known from the shorter one.

* `SameAt.bind`, `SameAt.orElse` — what is read alike by parsers that are put together.
* `sameAt_identifier`, `sameAt_numeral` — tokens do not go over a break.
* `LedBy.fails_beyond` — what cannot be read where the shorter text has a certain lead.
-/

namespace MinRuby.Syntax

open MinRuby.Text (isAsciiWord isDecimalDigit)
open MinRuby.Syntax.Parser

/-- What stands at the break of a text, and what stands there in the text that goes on. -/
inductive Cut : List Char → List Char → Prop where
  | line (v : List Char) : Cut [] ('\n' :: v)
  /-- The last line has a line feed of its own. -/
  | feed (v : List Char) : Cut ['\n'] ('\n' :: v)
  /-- A backslash joins the next line to the one that breaks off. -/
  | joined (v : List Char) : Cut ['\\'] (' ' :: v)

/-- The cursor with more text behind its own. -/
def Cursor.append (c : Cursor) (z : List Char) : Cursor := ⟨c.before, c.rest ++ z⟩

/-- The same outcome in front of two texts. -/
inductive Same (x y : List Char) {α : Type} : Reply α → Reply α → Prop where
  | done (a : α) (c : Cursor) : Same x y (.done a (c.append x)) (.done a (c.append y))
  | fail : Same x y .fail .fail
  | giveUp (r : Surrender) : Same x y (.giveUp r) (.giveUp r)

/-- The parser does the same in front of two texts. -/
def Parser.SameAt (x y : List Char) {α : Type} (p : Parser α) (c : Cursor) : Prop :=
  Same x y (p (c.append x)) (p (c.append y))

/-- Parsers that are followed by others, alike one after the other. -/
theorem Same.bind {α β : Type} {x y : List Char} {p q : Parser α} {f g : α → Parser β} {c c' : Cursor}
    (h : Same x y (p c) (q c'))
    (hf : ∀ a (c₁ : Cursor), p c = .done a (c₁.append x) → Same x y (f a (c₁.append x)) (g a (c₁.append y))) :
    Same x y ((p >>= f) c) ((q >>= g) c') := by
  show Same x y (Parser.bind p f c) (Parser.bind q g c')
  unfold Parser.bind
  revert hf
  generalize p c = r, q c' = r' at h
  intro hf
  cases h with
  | done a c₁ => exact hf a c₁ rfl
  | fail => exact .fail
  | giveUp r => exact .giveUp r

namespace Parser

variable {α β : Type} {x y : List Char} {p q : Parser α} {f : α → Parser β} {c : Cursor}

namespace SameAt

theorem pure (a : α) : SameAt x y (Pure.pure a) c := Same.done a c

theorem fail : SameAt x y (Parser.fail : Parser α) c := Same.fail

theorem bind (hp : SameAt x y p c)
    (hf : ∀ a c', p (c.append x) = .done a (c'.append x) → SameAt x y (f a) c') : SameAt x y (p >>= f) c :=
  Same.bind hp hf

theorem orElse (hp : SameAt x y p c) (hq : p (c.append x) = .fail → SameAt x y q c) : SameAt x y (p <|> q) c := by
  show Same x y (Parser.orElse p (fun _ => q) (c.append x)) (Parser.orElse p (fun _ => q) (c.append y))
  unfold Parser.orElse
  unfold SameAt at hp
  revert hq
  generalize p (c.append x) = r, p (c.append y) = r' at hp
  intro hq
  cases hp with
  | done a c' => exact .done a c'
  | fail => exact hq rfl
  | giveUp r => exact .giveUp r

theorem optional (hp : SameAt x y p c) : SameAt x y (Parser.optional p) c := by
  unfold SameAt Parser.optional
  unfold SameAt at hp
  generalize p (c.append x) = r, p (c.append y) = r' at hp
  cases hp with
  | done a c' => exact .done (some a) c'
  | fail => exact .done none c
  | giveUp r => exact .giveUp r

theorem notAhead (hp : SameAt x y p c) : SameAt x y (Parser.notAhead p) c := by
  unfold SameAt Parser.notAhead
  unfold SameAt at hp
  generalize p (c.append x) = r, p (c.append y) = r' at hp
  cases hp with
  | done a c' => exact .fail
  | fail => exact .done () c
  | giveUp r => exact .giveUp r

theorem notAhead_bind {f : Unit → Parser β} (hp : SameAt x y p c) (hf : p (c.append x) = .fail → SameAt x y (f ()) c) :
    SameAt x y (Parser.notAhead p >>= f) c := by
  show Same x y (Parser.bind (Parser.notAhead p) f (c.append x)) (Parser.bind (Parser.notAhead p) f (c.append y))
  unfold Parser.bind Parser.notAhead
  unfold SameAt at hp
  revert hf
  generalize p (c.append x) = r, p (c.append y) = r' at hp
  intro hf
  cases hp with
  | done a c' => exact .fail
  | fail => exact hf rfl
  | giveUp r => exact .giveUp r

theorem fails (hp : SameAt x y p c) (h : p (c.append x) = .fail) : p (c.append y) = .fail := by
  unfold SameAt at hp
  rw [h] at hp
  generalize p (c.append y) = r' at hp
  cases hp
  rfl

theorem fails_left (hp : SameAt x y p c) (h : p (c.append y) = .fail) : p (c.append x) = .fail := by
  unfold SameAt at hp
  rw [h] at hp
  generalize p (c.append x) = r at hp
  cases hp
  rfl

theorem done {a : α} {c' : Cursor} (hp : SameAt x y p c) (h : p (c.append x) = .done a c') :
    ∃ c'' : Cursor, c' = c''.append x ∧ p (c.append y) = .done a (c''.append y) := by
  unfold SameAt at hp
  rw [h] at hp
  generalize p (c.append y) = r' at hp
  cases hp with
  | done a c'' => exact ⟨c'', rfl, rfl⟩

theorem giveUp {r : Surrender} (hp : SameAt x y p c) (h : p (c.append x) = .giveUp r) : p (c.append y) = .giveUp r := by
  unfold SameAt at hp
  rw [h] at hp
  generalize p (c.append y) = r' at hp
  cases hp
  rfl

end SameAt

end Parser

/-! ## The break -/

namespace Cut

variable {x y : List Char} {r : Char → Bool}

/-- Neither text goes on at the break with a character that could belong to what stands before it. -/
theorem head (h : Cut x y) (hr : r '\\' = false ∧ r '\n' = false ∧ r ' ' = false) :
    x.head?.any r = false ∧ y.head?.any r = false := by
  cases h with
  | line v => exact ⟨rfl, hr.2.1⟩
  | feed v => exact ⟨hr.2.1, hr.2.1⟩
  | joined v => exact ⟨hr.1, hr.2.2⟩

end Cut

theorem takeWhile_append_of_head {r : Char → Bool} {w z : List Char} (hz : z.head?.any r = false) :
    (w ++ z).takeWhile r = w.takeWhile r := by
  induction w with
  | nil =>
    cases z with
    | nil => rfl
    | cons a z =>
      have ha : r a = false := hz
      rw [List.nil_append, List.takeWhile_cons, ha, if_neg Bool.false_ne_true, List.takeWhile_nil]
  | cons a w ih => rw [List.cons_append, List.takeWhile_cons, List.takeWhile_cons, ih]

/-- Characters that do not stand at the start of the other text are those of a prefix of the first one. -/
theorem isPrefixOf_append_of_head {o w z : List Char} (hz : ∀ a ∈ o, z.head? ≠ some a) :
    o.isPrefixOf (w ++ z) = o.isPrefixOf w := by
  induction o generalizing w with
  | nil => simp
  | cons a o ih =>
    cases w with
    | nil =>
      cases z with
      | nil => rfl
      | cons b z =>
        have hne : (a == b) = false := beq_eq_false_iff_ne.mpr fun h => hz a List.mem_cons_self (by rw [h]; rfl)
        show (a == b && o.isPrefixOf z) = false
        rw [hne, Bool.false_and]
    | cons b w =>
      rw [List.cons_append, List.isPrefixOf, List.isPrefixOf, ih fun a' ha' => hz a' (List.mem_cons_of_mem a ha')]

namespace Cursor

variable {c : Cursor} {z : List Char}

theorem rest_append : (c.append z).rest = c.rest ++ z := rfl

theorem before_append : (c.append z).before = c.before := rfl

theorem skip_append {n : Nat} (h : n ≤ c.rest.length) : (c.append z).skip n = (c.skip n).append z := by
  induction n generalizing c with
  | zero => rfl
  | succ n ih =>
    obtain ⟨before, rest⟩ := c
    cases rest with
    | nil => exact absurd h (Nat.not_succ_le_zero n)
    | cons a rest => exact ih (c := ⟨some a, rest⟩) (Nat.le_of_succ_le_succ h)

theorem skipBlanks_append (hz : z.head?.any (· == ' ') = false) : (c.append z).skipBlanks = c.skipBlanks.append z := by
  rw [skipBlanks, rest_append, takeWhile_append_of_head hz, skip_append (List.takeWhile_prefix _).length_le]
  rfl

/-- More than blanks is left of the text, so only these are skipped. -/
theorem skipBlanks_append_of_rest (h : c.skipBlanks.rest ≠ []) : (c.append z).skipBlanks = c.skipBlanks.append z := by
  have htaken : ∀ w : List Char, w.dropWhile (· == ' ') ≠ [] →
      (w ++ z).takeWhile (· == ' ') = w.takeWhile (· == ' ') := by
    intro w hw
    induction w with
    | nil => exact absurd rfl hw
    | cons a w ih =>
      rw [List.cons_append, List.takeWhile_cons, List.takeWhile_cons]
      split
      · next ha =>
        rw [List.dropWhile_cons, if_pos ha] at hw
        rw [ih hw]
      · rfl
  rw [rest_skipBlanks] at h
  rw [skipBlanks, rest_append, htaken c.rest h, skip_append (List.takeWhile_prefix _).length_le]
  rfl

/-- No backslash is next that would join the line behind the break. -/
def Ready (c : Cursor) : Prop := c.lead ≠ .mark '\\'

/-- More than blanks stands before the break. -/
def Inside (c : Cursor) : Prop := c.lead ≠ .finish ∧ c.Ready

end Cursor

section

variable {x y : List Char} {c : Cursor} (hcut : Cut x y)
include hcut

theorem Cut.skipBlanks_left : (c.append x).skipBlanks = c.skipBlanks.append x :=
  Cursor.skipBlanks_append (by cases hcut <;> rfl)

theorem Cut.skipBlanks_right (h : (c.append x).Ready) : (c.append y).skipBlanks = c.skipBlanks.append y := by
  by_cases hrest : c.skipBlanks.rest = []
  · cases hcut with
    | line v => exact Cursor.skipBlanks_append rfl
    | feed v => exact Cursor.skipBlanks_append rfl
    | joined v =>
      refine absurd ?_ h
      have hend : (c.append ['\\']).skipBlanks.rest = ['\\'] := by
        rw [(Cut.joined v).skipBlanks_left, Cursor.rest_append, hrest]
        rfl
      exact lead_of_mark hend (by decide)
  · exact Cursor.skipBlanks_append_of_rest hrest

/-- Something stands before the break where the line feed that is read there is not the last thing. -/
theorem Cut.rest_ne_nil (h : (c.append x).Inside)
    (hmore : ∀ c', symbol "\n" (c.append x) = .done () c' → c'.lead ≠ .finish) : c.skipBlanks.rest ≠ [] := by
  intro hrest
  have hend : (c.append x).skipBlanks.rest = x := by rw [hcut.skipBlanks_left, Cursor.rest_append, hrest, List.nil_append]
  cases hcut with
  | line v => exact h.1 (lead_of_end hend)
  | feed v => exact hmore _ (symbol_of_rest (w := []) rfl hend) (lead_of_end rfl)
  | joined v => exact h.2 (lead_of_mark hend (by decide))

end

/-! ## Tokens -/

namespace Parser

section

variable {x y : List Char} {c : Cursor} (hcut : Cut x y)
include hcut

theorem sameAt_adjacent {o : List Char} (ho : o.any atBreak = false) : SameAt x y (adjacent o) c := by
  have hstart {z : List Char} (hz : z.head?.all atBreak = true) :
      o.isPrefixOf (c.append z).rest = o.isPrefixOf c.rest := by
    refine isPrefixOf_append_of_head fun a ha hhead => ?_
    rw [hhead] at hz
    exact List.any_eq_false.mp ho a ha hz
  have hx : x.head?.all atBreak = true := by cases hcut <;> rfl
  have hy : y.head?.all atBreak = true := by cases hcut <;> rfl
  unfold SameAt adjacent
  rw [hstart hx, hstart hy]
  split
  · next h =>
    have hlength := (List.isPrefixOf_iff_prefix.mp h).length_le
    rw [Cursor.skip_append hlength, Cursor.skip_append hlength]
    exact .done () _
  · exact .fail

omit hcut in
/-- Before the break any character is read alike. -/
theorem sameAt_satisfying_of_rest {r : Char → Bool} (h : c.rest ≠ []) : SameAt x y (satisfying r) c := by
  obtain ⟨before, rest⟩ := c
  obtain ⟨a, rest, rfl⟩ := List.exists_cons_of_ne_nil h
  unfold SameAt
  cases ha : r a with
  | true =>
    have hdone (z : List Char) : satisfying r (Cursor.append ⟨before, a :: rest⟩ z) = .done a ⟨some a, rest ++ z⟩ :=
      satisfying_of_rest rfl ha
    rw [hdone, hdone]
    exact .done a ⟨some a, rest⟩
  | false =>
    have hfail (z : List Char) : satisfying r (Cursor.append ⟨before, a :: rest⟩ z) = .fail := satisfying_of_head ha
    rw [hfail, hfail]
    exact .fail

theorem sameAt_satisfying {r : Char → Bool} (hr : r '\\' = false ∧ r '\n' = false ∧ r ' ' = false) :
    SameAt x y (satisfying r) c := by
  by_cases hrest : c.rest = []
  · obtain ⟨hx, hy⟩ := hcut.head hr
    have hfail {z : List Char} (hz : z.head?.any r = false) : satisfying r (c.append z) = .fail :=
      satisfying_of_head (by rwa [Cursor.rest_append, hrest])
    unfold SameAt
    rw [hfail hx, hfail hy]
    exact .fail
  · exact sameAt_satisfying_of_rest hrest

theorem sameAt_takeWhile {r : Char → Bool} (hr : r '\\' = false ∧ r '\n' = false ∧ r ' ' = false) :
    SameAt x y (takeWhile r) c := by
  obtain ⟨hx, hy⟩ := hcut.head hr
  unfold SameAt takeWhile
  have hlength : (c.rest.takeWhile r).length ≤ c.rest.length := (List.takeWhile_prefix _).length_le
  simp only [Cursor.rest_append, takeWhile_append_of_head hx, takeWhile_append_of_head hy, Cursor.skip_append hlength]
  exact .done _ _

/-- What follows blanks is read alike if it is so behind them. -/
theorem sameAt_blanks {α : Type} {q : Parser α} (hready : (c.append x).Ready) (hq : SameAt x y q c.skipBlanks) :
    SameAt x y (do blanks; q) c := by
  show Same x y (q (c.append x).skipBlanks) (q (c.append y).skipBlanks)
  rw [hcut.skipBlanks_left, hcut.skipBlanks_right hready]
  exact hq

theorem sameAt_symbol {o : String} (hready : (c.append x).Ready) (ho : o.toList.any atBreak = false) :
    SameAt x y (symbol o) c := sameAt_blanks hcut hready (sameAt_adjacent hcut ho)

theorem sameAt_keyword {word : String} (hready : (c.append x).Ready) (hword : word ∈ keywords) :
    SameAt x y (keyword word) c := by
  have hjoins : ∀ a ∈ word.toList, joinsKeyword a = true :=
    List.all_eq_true.mp ((by decide : ∀ w ∈ keywords, w.toList.all joinsKeyword = true) word hword)
  refine sameAt_blanks hcut hready ?_
  generalize c.skipBlanks = c
  have hstart {z : List Char} (hz : z.head?.any joinsKeyword = false) :
      word.toList.isPrefixOf (c.append z).rest = word.toList.isPrefixOf c.rest := by
    refine isPrefixOf_append_of_head fun a ha hhead => ?_
    rw [hhead] at hz
    exact Bool.false_ne_true (hz.symm.trans (hjoins a ha))
  obtain ⟨hx, hy⟩ := hcut.head (r := joinsKeyword) ⟨by decide, by decide, by decide⟩
  unfold SameAt
  simp only [hstart hx, hstart hy, Cursor.before_append]
  cases h : word.toList.isPrefixOf c.rest with
  | false => exact .fail
  | true =>
    have hlength := (List.isPrefixOf_iff_prefix.mp h).length_le
    have hnext {z : List Char} (hz : z.head?.any joinsKeyword = false) :
        ((c.append z).rest.drop word.toList.length).head?.any joinsKeyword =
          (c.rest.drop word.toList.length).head?.any joinsKeyword := by
      rw [Cursor.rest_append, List.drop_append_of_le_length hlength]
      cases c.rest.drop word.toList.length with
      | nil => exact hz
      | cons a rest => rfl
    rw [hnext hx, hnext hy, Cursor.skip_append hlength, Cursor.skip_append hlength]
    split
    · exact .done () _
    · exact .fail

omit hcut in
/-- A single character is read alike if more than blanks stands before the break. -/
theorem sameAt_symbol_of_rest {o : String} {z : Char} (ho : o.toList = [z]) (h : c.skipBlanks.rest ≠ []) :
    SameAt x y (symbol o) c := by
  have hblanks (w : List Char) : symbol o (c.append w) = adjacent [z] (c.skipBlanks.append w) := by
    rw [← ho, ← Cursor.skipBlanks_append_of_rest h]
    rfl
  rw [SameAt, hblanks, hblanks]
  generalize c.skipBlanks = c at h
  obtain ⟨before, rest⟩ := c
  obtain ⟨a, rest, rfl⟩ := List.exists_cons_of_ne_nil h
  by_cases ha : a = z
  · obtain rfl := ha
    have hread (w : List Char) : adjacent [a] (Cursor.append ⟨before, a :: rest⟩ w) =
        .done () (Cursor.append ⟨some a, rest⟩ w) := adjacent_of_rest rfl
    rw [hread, hread]
    exact .done () _
  · have hfail (w : List Char) : adjacent [z] (Cursor.append ⟨before, a :: rest⟩ w) = .fail :=
      adjacent_of_head (beq_eq_false_iff_ne.mpr ha)
    rw [hfail, hfail]
    exact .fail

/-- Inside the text a line feed is read alike. -/
theorem sameAt_lineFeed (h : (c.append x).Inside)
    (hmore : ∀ c', symbol "\n" (c.append x) = .done () c' → c'.lead ≠ .finish) : SameAt x y (symbol "\n") c :=
  sameAt_symbol_of_rest rfl (hcut.rest_ne_nil h hmore)

theorem sameAt_identifier (hready : (c.append x).Ready) : SameAt x y identifier c := by
  have hany : ∀ words : List String, (∀ w ∈ words, w ∈ keywords) →
      SameAt x y (words.foldr (fun w p => keyword w <|> p) Parser.fail) c := by
    intro words hwords
    induction words with
    | nil => exact .fail
    | cons w words ih =>
      exact (sameAt_keyword hcut hready (hwords w List.mem_cons_self)).orElse fun _ =>
        ih fun w' hw' => hwords w' (List.mem_cons_of_mem w hw')
  refine (hany keywords fun _ => id).notAhead_bind fun _ => sameAt_blanks hcut hready ?_
  refine (sameAt_satisfying hcut (by decide)).bind fun first _ _ => ?_
  refine (sameAt_takeWhile hcut (by decide)).bind fun more _ _ => ?_
  refine SameAt.bind (.optional ?_) fun _ _ _ => .pure _
  exact (sameAt_satisfying hcut (by decide)).bind fun _ _ _ => (sameAt_adjacent hcut (by decide)).notAhead_bind fun _ => .pure _

theorem sameAt_numeral (hready : (c.append x).Ready) : SameAt x y numeral c := by
  refine sameAt_blanks hcut hready ?_
  refine (sameAt_satisfying hcut (by decide)).bind fun first _ _ => ?_
  refine (sameAt_takeWhile hcut (by decide)).bind fun more _ _ => ?_
  have hfraction (c : Cursor) : SameAt x y fraction c :=
    (sameAt_adjacent hcut (by decide)).bind fun _ _ _ => (sameAt_satisfying hcut (by decide)).bind fun _ _ _ =>
      (sameAt_takeWhile hcut (by decide)).bind fun _ _ _ => .pure _
  have hexponent (c : Cursor) : SameAt x y exponent c :=
    (sameAt_satisfying hcut (by decide)).bind fun _ _ _ => (sameAt_satisfying hcut (by decide)).optional.bind fun _ _ _ =>
      (sameAt_satisfying hcut (by decide)).bind fun _ _ _ => (sameAt_takeWhile hcut (by decide)).bind fun _ _ _ => .pure _
  refine (hfraction _).optional.bind fun fraction? _ _ => (hexponent _).optional.bind fun exponent? _ _ => ?_
  split
  · split
    · exact Same.giveUp _
    · exact .pure _
  · exact .pure _

omit hcut in
theorem literalBody_cons_of_ne {quote a : Char} (ha : a ≠ '\\') (w : List Char) : literalBody quote (a :: w) =
    if a = quote then some [] else (literalBody quote w).map (a :: ·) := by
  rw [literalBody.eq_3 quote a w fun _ _ h => absurd h ha, if_neg ha]

/-- A literal that ends before the break does so in the longer text. -/
theorem literalBody_of_cut {quote : Char} (hquote : quote ≠ '\\') (hfeed : quote ≠ '\n') {w body : List Char}
    (h : literalBody quote (w ++ x) = some body) :
    literalBody quote (w ++ y) = some body ∧ body.length < w.length := by
  fun_induction literalBody quote w generalizing body with
  | case1 =>
    cases hcut with
    | line v => cases h
    | feed v =>
      rw [List.nil_append, literalBody_cons_of_ne (by decide), if_neg (Ne.symm hfeed)] at h
      cases h
    | joined v =>
      rw [List.nil_append, literalBody, if_neg (Ne.symm hquote), if_pos rfl] at h
      · cases h
      · exact fun _ _ _ h' => List.cons_ne_nil _ _ h'.symm
  | case2 rest => cases h
  | case3 a rest ha ih =>
    rw [List.cons_append, List.cons_append, literalBody, if_neg ha] at h
    obtain ⟨more, hmore, rfl⟩ := Option.map_eq_some_iff.mp h
    obtain ⟨hlong, hlength⟩ := ih hmore
    rw [List.cons_append, List.cons_append, literalBody, if_neg ha, hlong]
    simp only [Option.map_some, List.length_cons]
    exact ⟨trivial, by omega⟩
  | case4 rest =>
    rw [List.cons_append, literalBody_cons_of_ne hquote, if_pos rfl] at h
    obtain rfl := Option.some.inj h
    rw [List.cons_append, literalBody_cons_of_ne hquote, if_pos rfl]
    exact ⟨rfl, Nat.succ_pos _⟩
  | case5 rest hrest =>
    -- a backslash as the last character takes nothing with it
    cases rest with
    | nil =>
      cases hcut with
      | line v =>
        rw [List.append_nil, literalBody, if_neg (Ne.symm hquote), if_pos rfl] at h
        · cases h
        · exact fun _ _ _ h' => List.cons_ne_nil _ _ h'.symm
      | feed v => cases h
      | joined v => cases h
    | cons a rest => exact (hrest a rest rfl rfl).elim
  | case6 a rest _ ha hslash ih =>
    rw [List.cons_append, literalBody_cons_of_ne hslash, if_neg ha] at h
    obtain ⟨more, hmore, rfl⟩ := Option.map_eq_some_iff.mp h
    obtain ⟨hlong, hlength⟩ := ih hmore
    rw [List.cons_append, literalBody_cons_of_ne hslash, if_neg ha, hlong]
    simp only [Option.map_some, List.length_cons]
    exact ⟨trivial, by omega⟩

theorem sameAt_quotedLiteral {quote : Char} (hquote : Lead.ofChar quote = .mark quote) (hbreak : atBreak quote = false)
    (hread : quotedLiteral quote (c.append x) ≠ .fail) : SameAt x y (quotedLiteral quote) c := by
  have hslash : quote ≠ '\\' := by
    rintro rfl
    cases hbreak
  have hfeed : quote ≠ '\n' := by
    rintro rfl
    cases hbreak
  have hready : (c.append x).Ready := by
    rw [Cursor.Ready, List.mem_singleton.mp (ledBy_quotedLiteral hquote _ hread)]
    exact fun h => hslash (Lead.mark.inj h)
  refine sameAt_blanks hcut hready ((sameAt_adjacent hcut (by simp [hbreak])).bind fun _ c' hc' => ?_)
  have hblanks : blanks (c.append x) = .done () (c.skipBlanks.append x) := congrArg (Reply.done ()) hcut.skipBlanks_left
  unfold SameAt
  simp only [Cursor.rest_append]
  cases hbody : literalBody quote (c'.rest ++ x) with
  | none =>
    refine absurd ((bind_of_done hblanks).trans ((bind_of_done hc').trans ?_)) hread
    simp only [Cursor.rest_append, hbody]
  | some body =>
    obtain ⟨hlong, hlength⟩ := literalBody_of_cut hcut hslash hfeed hbody
    rw [hlong]
    simp only [Cursor.skip_append (Nat.succ_le_of_lt hlength)]
    exact .done body _

end

end Parser

/-! ## Leads beyond the break -/

/-- Where one of the leads `E` stands in the text that breaks off, no parser led by `K` finds its lead in the longer
text: at the end it would find a line feed. -/
def Lead.bars (E K : List Lead) : Bool :=
  E.all fun l => l != .mark '\\' && !K.contains (if l = .finish then .mark '\n' else l)

section

variable {x y : List Char} {c : Cursor} (hcut : Cut x y)
include hcut

theorem Cut.keyword_isDone (hready : (c.append x).Ready) {w : String} (hw : w ∈ keywords) :
    (keyword w (c.append y)).isDone = (keyword w (c.append x)).isDone := by
  have hsame := sameAt_keyword hcut hready hw
  unfold SameAt at hsame
  generalize keyword w (c.append x) = r, keyword w (c.append y) = r' at hsame
  cases hsame <;> rfl

/-- The lead of the longer text. -/
theorem Cut.lead_right (hready : (c.append x).Ready) :
    (c.append y).lead = if (c.append x).lead = .finish then .mark '\n' else (c.append x).lead := by
  by_cases hrest : c.skipBlanks.rest = []
  · have hleft : (c.append x).skipBlanks.rest = x := by
      rw [hcut.skipBlanks_left, Cursor.rest_append, hrest, List.nil_append]
    have hright : (c.append y).skipBlanks.rest = y := by
      rw [hcut.skipBlanks_right hready, Cursor.rest_append, hrest, List.nil_append]
    cases hcut with
    | line v => rw [lead_of_end hleft, lead_of_mark hright (by decide), if_pos rfl]
    | feed v => rw [lead_of_mark hleft (by decide), lead_of_mark hright (by decide), if_neg (by decide)]
    | joined v => exact absurd (lead_of_mark hleft (by decide)) hready
  · obtain ⟨a, rest, hrest⟩ := List.exists_cons_of_ne_nil hrest
    have hlead : (c.append y).lead = (c.append x).lead := by
      unfold Cursor.lead
      rw [hcut.skipBlanks_left, hcut.skipBlanks_right hready, Cursor.rest_append, Cursor.rest_append, hrest,
        List.find?_congr fun w hw => hcut.keyword_isDone hready hw]
      rfl
    rw [hlead, if_neg fun hfinish => ?_]
    rw [lead_eq_finish_iff, hcut.skipBlanks_left, Cursor.rest_append, hrest] at hfinish
    cases hfinish

/-- What stands at the break starts no phrase. -/
theorem Cut.lead_at_break (h : c.rest = []) : (c.append x).lead ∈ [.finish, .mark '\n', .mark '\\'] := by
  have hrest : (c.append x).skipBlanks.rest = x := by
    rw [hcut.skipBlanks_left, Cursor.rest_append, Cursor.rest_skipBlanks_of_end h, List.nil_append]
  cases hcut with
  | line v => exact lead_of_end hrest ▸ List.mem_cons_self
  | feed v => exact lead_of_mark hrest (by decide) ▸ List.mem_cons_of_mem _ List.mem_cons_self
  | joined v => exact lead_of_mark hrest (by decide) ▸ List.mem_cons_of_mem _ (List.mem_cons_of_mem _ List.mem_cons_self)

/-- Where the shorter text has a lead that bars those of the parser, it fails in the longer one. -/
theorem Parser.LedBy.fails_beyond {α : Type} {p : Parser α} {E K : List Lead} (hp : LedBy p K)
    (hlead : (c.append x).lead ∈ E) (hbars : Lead.bars E K = true) : p (c.append y) = .fail := by
  have hbar := List.all_eq_true.mp hbars _ hlead
  simp only [Bool.and_eq_true, bne_iff_ne, Bool.not_eq_true', List.contains_eq_mem, decide_eq_false_iff_not] at hbar
  refine hp.fails ?_
  rw [hcut.lead_right hbar.1]
  exact hbar.2

/-- The second of two parsers is read alike if it can be read where the first one cannot. -/
theorem Parser.SameAt.choice {α : Type} {p q : Parser α} {K K' : List Lead} (hp : LedBy p K) (hq : LedBy q K')
    (hbars : Lead.bars K' K = true) (hfirst : p (c.append x) ≠ .fail → SameAt x y p c)
    (hsecond : q (c.append x) ≠ .fail → SameAt x y q c) (h : (p <|> q) (c.append x) ≠ .fail) :
    SameAt x y (p <|> q) c := by
  by_cases hread : p (c.append x) = .fail
  · rw [orElse_of_fail hread] at h
    refine SameAt.orElse ?_ fun _ => hsecond h
    rw [SameAt, hread, hp.fails_beyond hcut (hq _ h) hbars]
    exact .fail
  · exact (hfirst hread).orElse fun hfail => absurd hfail hread

theorem Parser.sameAt_stringLiteral (h : stringLiteral (c.append x) ≠ .fail) : SameAt x y stringLiteral c := by
  have hliteral {quote : Char} {f : List Char → String} (hquote : Lead.ofChar quote = .mark quote)
      (hbreak : atBreak quote = false)
      (h : (do return Literal.str (f (← quotedLiteral quote)) : Parser Literal) (c.append x) ≠ .fail) :
      SameAt x y (do return Literal.str (f (← quotedLiteral quote)) : Parser Literal) c :=
    (sameAt_quotedLiteral hcut hquote hbreak fun hfail => h (bind_of_fail hfail)).bind fun _ _ _ => .pure _
  exact .choice hcut (ledBy_quotedLiteral (x := '"') (by decide)).bind (ledBy_quotedLiteral (x := '\'') (by decide)).bind
    (by decide) (hliteral (by decide) (by decide)) (hliteral (by decide) (by decide)) h

end

end MinRuby.Syntax
