import MinRuby.Proofs.Syntax.LiteralProgram

/-!
# Formulas and how they are written

Expressions over names, integer numerals, the words `true`, `false` and `nil`, and the operators. Each operator
has a rank, from the conditional, which binds loosest, to the negation; every place of an operand has the rank
that an operand needs there to stand without parentheses. A formula is written with one blank on each side of an
operator between operands, and with no other parentheses.

* `Formula.text`, `Formula.term` — how a formula is written, and the term it stands for.
* `Formula.prepare_text`, `Formula.strip_text` — the text is source text that is prepared already.
-/

namespace MinRuby.Syntax

open MinRuby.Text (isAsciiWord isBlank isDecimalDigit)
open MinRuby.Numeric (digitsValue)

/-! ## Operators -/

namespace Connective

/-- The spelling of a connective. -/
def symbol : Connective → String
  | core op => op.symbol
  | notEqual => "!="
  | both => "&&"
  | either => "||"

/-- How tightly a connective binds. The ranks between are those of the conditional (0), the minus sign (7), the
negation (9) and what needs no parentheses anywhere (10). -/
def rank : Connective → Nat
  | either => 1
  | both => 2
  | core .eq | notEqual => 3
  | core .lt | core .le | core .ge | core .gt => 4
  | core .add | core .sub => 5
  | core .mul | core .div | core .mod => 6
  | core .pow => 8

/-- The rank of the place before a connective. Powers alone group from the right. -/
def leftRank (op : Connective) : Nat := if op = core .pow then 9 else op.rank

/-- The rank of the place behind a connective. An exponent may have a sign. -/
def rightRank (op : Connective) : Nat := if op = core .pow then 7 else op.rank + 1

/-- All connectives. -/
def all : List Connective := BinaryOp.all.map core ++ [notEqual, both, either]

theorem mem_all (op : Connective) : op ∈ all := by
  cases op with
  | core op => cases op <;> decide
  | notEqual => decide
  | both => decide
  | either => decide

theorem leftRank_le (op : Connective) : op.leftRank ≤ op.rank + 1 :=
  (by decide : ∀ op ∈ all, op.leftRank ≤ op.rank + 1) op op.mem_all

theorem rank_le (op : Connective) : op.rank ≤ 8 := (by decide : ∀ op ∈ all, op.rank ≤ 8) op op.mem_all

/-- Only powers bind more tightly than a minus sign. -/
theorem rank_cases (op : Connective) : (1 ≤ op.rank ∧ op.rank ≤ 6 ∧ op ≠ core .pow) ∨ op = core .pow :=
  (by decide : ∀ op ∈ all, (1 ≤ op.rank ∧ op.rank ≤ 6 ∧ op ≠ core .pow) ∨ op = core .pow) op op.mem_all

end Connective

/-! ## Operands -/

/-- A name that is no reserved word, mark apart. -/
structure Name where
  first : Char
  more : List Char
  mark : Option Char := none
  startsName_first : startsName first = true
  isAsciiWord_more : ∀ x ∈ more, isAsciiWord x = true
  eq_of_mem_mark : ∀ x ∈ mark, x = '?' ∨ x = '!'
  not_keyword : String.ofList (first :: more) ∉ keywords

/-- A name as it is written. -/
def Name.text (x : Name) : List Char := x.first :: x.more ++ x.mark.toList

/-- An integer as it is written: a digit, then digits and underscores. -/
structure Numeral where
  first : Char
  more : List Char
  isDigit_first : isDecimalDigit first = true
  isDigit_more : ∀ x ∈ more, (isDecimalDigit x || x == '_') = true

namespace Numeral

/-- A numeral as it is written. -/
def text (n : Numeral) : List Char := n.first :: n.more

/-- The digits of a numeral. -/
def digits (n : Numeral) : List Char := n.text.filter (· ≠ '_')

/-- The integer that a numeral stands for. -/
def value (n : Numeral) : Nat := digitsValue n.digits

end Numeral

/-! ## Formulas -/

/-- An expression without calls, indices, compound literals and assignments. -/
inductive Formula where
  | name (x : Name)
  | numeral (n : Numeral)
  | truth (b : Bool)
  | nil
  | negation (operand : Formula)
  | minus (operand : Formula)
  | binary (op : Connective) (left right : Formula)
  | choice (test yes no : Formula)

/-- A text in parentheses if its rank is below that of its place. -/
def enclosed (place rank : Nat) (text : List Char) : List Char :=
  if rank < place then '(' :: (text ++ [')']) else text

namespace Formula

/-- How tightly the outermost operator of a formula binds. -/
def rank : Formula → Nat
  | choice _ _ _ => 0
  | binary op _ _ => op.rank
  | minus _ => 7
  | negation _ => 9
  | name _ | numeral _ | truth _ | nil => 10

/-- A formula as it is written. -/
def text : Formula → List Char
  | name x => x.text
  | numeral n => n.text
  | truth true => "true".toList
  | truth false => "false".toList
  | nil => "nil".toList
  | negation operand => '!' :: enclosed 9 operand.rank operand.text
  | minus operand => '-' :: enclosed 7 operand.rank operand.text
  | binary op left right =>
    enclosed op.leftRank left.rank left.text ++ ' ' :: (op.symbol.toList ++ ' ' :: enclosed op.rightRank right.rank right.text)
  | choice test yes no =>
    enclosed 1 test.rank test.text ++ ' ' :: '?' :: ' ' :: (yes.text ++ ' ' :: ':' :: ' ' :: no.text)

/-- A formula as it is written at a place of the given rank. -/
def textAt (f : Formula) (place : Nat) : List Char := enclosed place f.rank f.text

/-- The term that a formula stands for. -/
def term : Formula → Term
  | name x => .name (String.ofList x.text)
  | numeral n => .lit (.int n.value)
  | truth b => .lit (.bool b)
  | nil => .lit .nil
  | negation operand => .negation operand.term
  | minus operand => .minus operand.term
  | binary op left right => .binary op left.term right.term
  | choice test yes no => .choice test.term yes.term no.term

/-- No numeral of the formula has too many digits. -/
def Short : Formula → Prop
  | numeral n => n.digits.length ≤ maxDigits
  | name _ | truth _ | nil => True
  | negation operand | minus operand => operand.Short
  | binary _ left right => left.Short ∧ right.Short
  | choice test yes no => test.Short ∧ yes.Short ∧ no.Short

instance decidableShort : ∀ f : Formula, Decidable f.Short
  | numeral n => inferInstanceAs (Decidable (n.digits.length ≤ maxDigits))
  | name _ | truth _ | nil => inferInstanceAs (Decidable True)
  | negation operand | minus operand => decidableShort operand
  | binary _ left right =>
    have := decidableShort left
    have := decidableShort right
    inferInstanceAs (Decidable (left.Short ∧ right.Short))
  | choice test yes no =>
    have := decidableShort test
    have := decidableShort yes
    have := decidableShort no
    inferInstanceAs (Decidable (test.Short ∧ yes.Short ∧ no.Short))

variable {f : Formula} {place : Nat}

theorem textAt_of_le (h : place ≤ f.rank) : f.textAt place = f.text := if_neg (Nat.not_lt_of_le h)

theorem textAt_of_lt (h : f.rank < place) : f.textAt place = '(' :: (f.text ++ [')']) := if_pos h

theorem rank_le (f : Formula) : f.rank ≤ 10 := by
  cases f with
  | binary op left right => exact Nat.le_trans op.rank_le (by decide)
  | _ => exact of_decide_eq_true rfl

theorem length_text_le (f : Formula) (place : Nat) : f.text.length ≤ (f.textAt place).length := by
  unfold textAt enclosed
  split
  · rw [List.length_cons, List.length_append]
    omega
  · exact Nat.le_refl _

end Formula

/-! ## Characters -/

/-- The preparation of source text has nothing to do with the character. -/
structure IsInk (x : Char) : Prop where
  not_mark : isMark x = false
  not_blank : isBlank x = false

/-- The text begins and ends with characters of some ink, and only blanks stand between such characters. -/
structure Inked (text : List Char) : Prop where
  first : ∃ x rest, text = x :: rest ∧ IsInk x
  last : ∃ init x, text = init ++ [x] ∧ IsInk x
  ink_or_blank : ∀ x ∈ text, IsInk x ∨ x = ' '

section

variable {x : Char}

/-- The marks of layout and literals are no characters of names and numerals. -/
theorem isMark_eq_false {p : Char → Bool} (hp : ['\r', '\n', '\t', '"', '\'', '#'].any p = false) (hx : p x = true) :
    isMark x = false := by
  refine Bool.eq_false_iff.mpr fun hmark => ?_
  have hmem : x ∈ ['\r', '\n', '\t', '"', '\'', '#'] := by
    simpa [isMark, isLayout, or_assoc] using hmark
  exact List.any_eq_false.mp hp x hmem hx

theorem isBlank_eq_false (h : ∀ r ∈ MinRuby.Text.blankRanges, x.toNat < r.1 ∨ r.2 < x.toNat) : isBlank x = false := by
  refine Bool.eq_false_iff.mpr fun hblank => ?_
  obtain ⟨r, hr, hlow, hhigh⟩ := MinRuby.Text.inRanges_iff.mp hblank
  rcases h r hr with hlt | hlt <;> omega

theorem exists_digitZero (h : isDecimalDigit x = true) :
    ∃ z ∈ MinRuby.Text.digitZeros, z ≤ x.toNat ∧ x.toNat < z + 10 := by
  rw [isDecimalDigit, MinRuby.Text.digitValue?, Option.isSome_map] at h
  obtain ⟨z, hz⟩ := Option.isSome_iff_exists.mp h
  have hrange := List.find?_some hz
  simp only [Bool.and_eq_true, decide_eq_true_eq] at hrange
  exact ⟨z, List.mem_of_find?_eq_some hz, hrange⟩

theorem isInk_of_isDecimalDigit (h : isDecimalDigit x = true) : IsInk x where
  not_mark := isMark_eq_false (by decide) h
  not_blank := by
    obtain ⟨z, hz, hlow, hhigh⟩ := exists_digitZero h
    refine isBlank_eq_false fun r hr => ?_
    have hapart : z + 10 ≤ r.1 ∨ r.2 < z :=
      (by decide : ∀ z ∈ MinRuby.Text.digitZeros, ∀ r ∈ MinRuby.Text.blankRanges, z + 10 ≤ r.1 ∨ r.2 < z) z hz r hr
    omega

theorem not_letter_of_isDecimalDigit (h : isDecimalDigit x = true) : (x.isAlpha || x == '_') = false := by
  obtain ⟨z, hz, hlow, hhigh⟩ := exists_digitZero h
  have hapart : z + 10 ≤ 65 ∨ 122 < z := (by decide : ∀ z ∈ MinRuby.Text.digitZeros, z + 10 ≤ 65 ∨ 122 < z) z hz
  refine Bool.eq_false_iff.mpr fun hletter => ?_
  have hbounds := bounds_of_letter hletter
  omega

theorem isInk_of_isAsciiWord (h : isAsciiWord x = true) : IsInk x where
  not_mark := isMark_eq_false (by decide) h
  not_blank := by
    simp only [isAsciiWord, Char.isAlphanum, Bool.or_eq_true] at h
    have hbounds : 48 ≤ x.toNat ∧ x.toNat ≤ 122 := by
      rcases h with (hletter | hdigit) | hscore
      · have hbounds := bounds_of_letter (by rw [hletter, Bool.true_or])
        omega
      · obtain ⟨hlow, hhigh⟩ := Bool.and_eq_true_iff.mp hdigit
        exact ⟨UInt32.le_iff_toNat_le.mp (of_decide_eq_true hlow),
          Nat.le_trans (UInt32.le_iff_toNat_le.mp (of_decide_eq_true hhigh)) (by decide)⟩
      · have hbounds := bounds_of_letter (by rw [hscore, Bool.or_true])
        omega
    refine isBlank_eq_false fun r hr => ?_
    have hapart : 122 < r.1 ∨ r.2 < 48 :=
      (by decide : ∀ r ∈ MinRuby.Text.blankRanges, 122 < r.1 ∨ r.2 < 48) r hr
    omega

theorem isAsciiWord_of_startsName (h : startsName x = true) : isAsciiWord x = true := by
  simp only [startsName, Bool.or_eq_true] at h
  simp only [isAsciiWord, Char.isAlphanum, Bool.or_eq_true]
  rcases h with h | h
  · exact .inl (.inl h)
  · exact .inr h

end

namespace Inked

variable {text text' : List Char}

theorem of_ink (hne : text ≠ []) (h : ∀ x ∈ text, IsInk x) : Inked text where
  first := by
    obtain ⟨x, rest, rfl⟩ := List.exists_cons_of_ne_nil hne
    exact ⟨x, rest, rfl, h x List.mem_cons_self⟩
  last := ⟨text.dropLast, text.getLast hne, (List.dropLast_concat_getLast hne).symm, h _ (List.getLast_mem hne)⟩
  ink_or_blank x hx := .inl (h x hx)

/-- Two texts with ink and blanks between them. -/
theorem append (h : Inked text) (middle : List Char) (hmiddle : ∀ x ∈ middle, IsInk x ∨ x = ' ') (h' : Inked text') :
    Inked (text ++ (middle ++ text')) where
  first := by
    obtain ⟨x, rest, rfl, hx⟩ := h.first
    exact ⟨x, rest ++ (middle ++ text'), rfl, hx⟩
  last := by
    obtain ⟨init, x, rfl, hx⟩ := h'.last
    exact ⟨text ++ (middle ++ init), x, by simp only [List.append_assoc], hx⟩
  ink_or_blank x hx := by
    rcases List.mem_append.mp hx with hx | hx
    · exact h.ink_or_blank x hx
    · rcases List.mem_append.mp hx with hx | hx
      · exact hmiddle x hx
      · exact h'.ink_or_blank x hx

theorem of_word (hne : text ≠ []) (h : ∀ x ∈ text, isAsciiWord x = true) : Inked text :=
  of_ink hne fun x hx => isInk_of_isAsciiWord (h x hx)

theorem of_char {x : Char} (hx : IsInk x) : Inked [x] :=
  of_ink (List.cons_ne_nil x []) fun _ hy => List.mem_singleton.mp hy ▸ hx

theorem cons {x : Char} (hx : IsInk x) (h : Inked text) : Inked (x :: text) :=
  (of_char hx).append [] (fun _ hy => absurd hy List.not_mem_nil) h

/-- Two operands of an operator. -/
theorem operands (h : Inked text) {o : List Char} (ho : ∀ x ∈ o, IsInk x) (h' : Inked text') :
    Inked (text ++ ' ' :: (o ++ ' ' :: text')) := by
  have htext : ' ' :: (o ++ ' ' :: text') = (' ' :: (o ++ [' '])) ++ text' := by
    rw [List.cons_append, List.append_assoc]
    rfl
  rw [htext]
  refine h.append _ (fun x hx => ?_) h'
  rw [List.mem_cons, List.mem_append, List.mem_singleton] at hx
  rcases hx with hx | hx | hx
  · exact .inr hx
  · exact .inl (ho x hx)
  · exact .inr hx

theorem enclosed (h : Inked text) (place rank : Nat) : Inked (enclosed place rank text) := by
  unfold Syntax.enclosed
  split
  · have hclose : Inked [')'] := of_char ⟨by decide, by decide⟩
    exact .cons ⟨by decide, by decide⟩ (h.append [] (fun _ hy => absurd hy List.not_mem_nil) hclose)
  · exact h

theorem starts (h : Inked text) : Starts text := by
  obtain ⟨x, rest, rfl, hx⟩ := h.first
  refine ⟨x, rest, rfl, ?_, ?_⟩
  · rintro rfl
    exact absurd hx.not_blank (by decide)
  · rintro rfl
    exact absurd hx.not_blank (by decide)

end Inked

open MinRuby.Text (strip stripLeft) in
theorem strip_of_inked {text : List Char} (h : Inked text) : strip text = text := by
  have hleft {text : List Char} {x : Char} {rest : List Char} (htext : text = x :: rest) (hx : IsInk x) :
      stripLeft text = text := by
    rw [stripLeft, htext, List.dropWhile_cons_of_neg (by rw [hx.not_blank]; exact Bool.false_ne_true)]
  obtain ⟨x, rest, hfirst, hx⟩ := h.first
  obtain ⟨init, y, hlast, hy⟩ := h.last
  have hreverse : text.reverse = y :: init.reverse := by rw [hlast, List.reverse_append]; rfl
  rw [strip, hleft hfirst hx, hleft hreverse hy, List.reverse_reverse]

theorem clear_of_inked {text : List Char} (h : Inked text) : Clear text := by
  refine .of_not_mark (List.any_eq_false.mpr fun x hx => ?_)
  rcases h.ink_or_blank x hx with hink | rfl
  · rw [hink.not_mark]
    exact Bool.false_ne_true
  · decide

namespace Formula

theorem inked_text : ∀ f : Formula, Inked f.text
  | name x => by
    refine .of_ink (List.cons_ne_nil _ _) fun y hy => ?_
    rcases List.mem_cons.mp hy with rfl | hy
    · exact isInk_of_isAsciiWord (isAsciiWord_of_startsName x.startsName_first)
    · rcases List.mem_append.mp hy with hy | hy
      · exact isInk_of_isAsciiWord (x.isAsciiWord_more y hy)
      · rcases x.eq_of_mem_mark y (Option.mem_toList.mp hy) with rfl | rfl <;> exact ⟨by decide, by decide⟩
  | numeral n => by
    refine .of_ink (List.cons_ne_nil _ _) fun y hy => ?_
    rcases List.mem_cons.mp hy with rfl | hy
    · exact isInk_of_isDecimalDigit n.isDigit_first
    · rcases Bool.or_eq_true_iff.mp (n.isDigit_more y hy) with hdigit | hscore
      · exact isInk_of_isDecimalDigit hdigit
      · rw [eq_of_beq hscore]
        exact ⟨by decide, by decide⟩
  | truth true => .of_word (by decide) (List.all_eq_true.mp (by decide))
  | truth false => .of_word (by decide) (List.all_eq_true.mp (by decide))
  | nil => .of_word (by decide) (List.all_eq_true.mp (by decide))
  | negation operand => .cons ⟨by decide, by decide⟩ (operand.inked_text.enclosed _ _)
  | minus operand => .cons ⟨by decide, by decide⟩ (operand.inked_text.enclosed _ _)
  | binary op left right => by
    have hop : ∀ x ∈ op.symbol.toList, IsInk x := fun x hx => by
      have hall := (by decide : ∀ op ∈ Connective.all, op.symbol.toList.all (fun x => !isMark x && !isBlank x) = true)
        op op.mem_all
      have hparts : isMark x = false ∧ isBlank x = false := by simpa using List.all_eq_true.mp hall x hx
      exact ⟨hparts.1, hparts.2⟩
    exact (left.inked_text.enclosed _ _).operands hop (right.inked_text.enclosed _ _)
  | choice test yes no => by
    have hmark (x : Char) (hx : isMark x = false ∧ isBlank x = false) : ∀ y ∈ [x], IsInk y := fun y hy => by
      rw [List.mem_singleton.mp hy]
      exact ⟨hx.1, hx.2⟩
    have hbranches := yes.inked_text.operands (hmark ':' (by decide)) no.inked_text
    exact (test.inked_text.enclosed _ _).operands (hmark '?' (by decide)) hbranches

theorem inked_textAt (f : Formula) (place : Nat) : Inked (f.textAt place) := f.inked_text.enclosed place f.rank

/-- The text of a formula is prepared already. -/
theorem prepare_text (f : Formula) : prepare f.text = f.text := (clear_of_inked f.inked_text).prepare_eq

/-- No blanks stand around the text of a formula. -/
theorem strip_text (f : Formula) : MinRuby.Text.strip f.text = f.text := strip_of_inked f.inked_text

/-! ## First characters -/

theorem head_append_of_inked {text : List Char} (h : Inked text) (tail : List Char) : (text ++ tail).head? = text.head? := by
  obtain ⟨x, rest, rfl, -⟩ := h.first
  rfl

theorem head_enclosed_ne {x : Char} (hx : x ≠ '(') {text : List Char} (place : Nat) {rank : Nat}
    (h : place ≤ rank → text.head? ≠ some x) : (enclosed place rank text).head? ≠ some x := by
  unfold enclosed
  split
  · exact fun heq => hx (Option.some.inj heq).symm
  · next hrank => exact h (Nat.le_of_not_lt hrank)

/-- No formula starts with an equals sign. -/
theorem head_text_ne_equals : ∀ f : Formula, f.text.head? ≠ some '='
  | name x => fun h => by
    have hfirst : x.first = '=' := Option.some.inj h
    exact absurd x.startsName_first (by rw [hfirst]; decide)
  | numeral n => fun h => by
    have hfirst : n.first = '=' := Option.some.inj h
    exact absurd n.isDigit_first (by rw [hfirst]; decide)
  | truth true => by decide
  | truth false => by decide
  | nil => by decide
  | negation operand => fun h => absurd (Option.some.inj h) (by decide)
  | minus operand => fun h => absurd (Option.some.inj h) (by decide)
  | binary op left right => by
    rw [text, head_append_of_inked (left.inked_text.enclosed _ _)]
    exact head_enclosed_ne (by decide) _ fun _ => left.head_text_ne_equals
  | choice test yes no => by
    rw [text, head_append_of_inked (test.inked_text.enclosed _ _)]
    exact head_enclosed_ne (by decide) _ fun _ => test.head_text_ne_equals

/-- A formula that binds more tightly than a minus sign starts with none. -/
theorem head_text_ne_minus : ∀ {f : Formula}, 8 ≤ f.rank → f.text.head? ≠ some '-'
  | name x, _ => fun h => by
    have hfirst : x.first = '-' := Option.some.inj h
    exact absurd x.startsName_first (by rw [hfirst]; decide)
  | numeral n, _ => fun h => by
    have hfirst : n.first = '-' := Option.some.inj h
    exact absurd n.isDigit_first (by rw [hfirst]; decide)
  | truth true, _ => by decide
  | truth false, _ => by decide
  | nil, _ => by decide
  | negation operand, _ => fun h => absurd (Option.some.inj h) (by decide)
  | minus operand, h => absurd h (by decide : ¬ 8 ≤ 7)
  | choice test yes no, h => absurd h (by decide : ¬ 8 ≤ 0)
  | binary op left right, h => by
    have hop : op = .core .pow := by
      rcases op.rank_cases with ⟨-, hloose, -⟩ | hop
      · exact absurd (Nat.le_trans h hloose) (by decide)
      · exact hop
    rw [text, head_append_of_inked (left.inked_text.enclosed _ _), hop]
    exact head_enclosed_ne (by decide) 9 fun hrank => head_text_ne_minus (Nat.le_trans (by decide) hrank)

/-- A formula that needs no parentheses anywhere starts with no negation. -/
theorem head_text_ne_mark {f : Formula} (h : 10 ≤ f.rank) : f.text.head? ≠ some '!' := by
  cases f with
  | name x =>
    intro h
    have hfirst : x.first = '!' := Option.some.inj h
    exact absurd x.startsName_first (by rw [hfirst]; decide)
  | numeral n =>
    intro h
    have hfirst : n.first = '!' := Option.some.inj h
    exact absurd n.isDigit_first (by rw [hfirst]; decide)
  | truth b => cases b <;> decide
  | nil => decide
  | binary op left right => exact absurd (Nat.le_trans h op.rank_le) (by decide)
  | negation operand => exact absurd h (by decide : ¬ 10 ≤ 9)
  | minus operand => exact absurd h (by decide : ¬ 10 ≤ 7)
  | choice test yes no => exact absurd h (by decide : ¬ 10 ≤ 0)

end Formula

end MinRuby.Syntax
