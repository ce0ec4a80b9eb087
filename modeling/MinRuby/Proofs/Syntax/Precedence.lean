import MinRuby.Proofs.Syntax.Formula

/-!
# Reading formulas

The text of a formula is read as the formula. An operand ends where an operator stands that binds less tightly
than its place demands, and there every operator that binds more tightly fails; so a place of a given rank reads
what the next tighter one reads, and the operators of its own level with the operands behind them.

* `reads_of_tighter` — a place reads what the next tighter one reads.
* `Formula.readsOwn` — every formula is read at places of its own rank, if the phrases that can be nested read
  the shorter ones.
-/

namespace MinRuby.Syntax

open MinRuby.Text (isAsciiWord isBlank isDecimalDigit)
open MinRuby.Syntax.Parser

/-! ## What follows an operand -/

/-- The texts that can follow an operand at a place of the given rank: none, a closing parenthesis, or an operator
that binds less tightly. -/
inductive Ends (place : Nat) : List Char → Prop where
  | done : Ends place []
  | parenthesis (rest : List Char) : Ends place (')' :: rest)
  | operator (op : Connective) (rest : List Char) (h : op.rank < place) :
    Ends place (' ' :: (op.symbol.toList ++ ' ' :: rest))
  | question (rest : List Char) (h : 0 < place) : Ends place (' ' :: '?' :: ' ' :: rest)
  | colon (rest : List Char) : Ends place (' ' :: ':' :: ' ' :: rest)

/-- How the texts that can follow an operand start, blanks apart. -/
def endings (place : Nat) : List (List Char) :=
  [')'] :: [':', ' '] :: (if 0 < place then [['?', ' ']] else []) ++
    (Connective.all.filter (·.rank < place)).map fun op => op.symbol.toList ++ [' ']

/-- Neither text starts with the other. -/
def apart (w w' : List Char) : Bool := !w.isPrefixOf w' && !w'.isPrefixOf w

theorem not_prefix_of_apart {w w' : List Char} (h : apart w w' = true) (rest : List Char) :
    w.isPrefixOf (w' ++ rest) = false := by
  simp only [apart, Bool.and_eq_true, Bool.not_eq_true'] at h
  refine Bool.eq_false_iff.mpr fun hstart => ?_
  rcases List.prefix_or_prefix_of_prefix (List.isPrefixOf_iff_prefix.mp hstart) (List.prefix_append w' rest) with hw | hw
  · exact Bool.false_ne_true (h.1.symm.trans (List.isPrefixOf_iff_prefix.mpr hw))
  · exact Bool.false_ne_true (h.2.symm.trans (List.isPrefixOf_iff_prefix.mpr hw))

theorem Connective.symbol_eq_cons (op : Connective) :
    ∃ x rest, op.symbol.toList = x :: rest ∧ (x == ' ') = false := by
  cases op with
  | core op => cases op <;> exact ⟨_, _, rfl, by decide⟩
  | notEqual => exact ⟨_, _, rfl, by decide⟩
  | both => exact ⟨_, _, rfl, by decide⟩
  | either => exact ⟨_, _, rfl, by decide⟩

namespace Ends

variable {place : Nat} {tail : List Char} {c : Cursor}

theorem mono (h : Ends place tail) {place' : Nat} (hle : place ≤ place') : Ends place' tail := by
  cases h with
  | done => exact .done
  | parenthesis rest => exact .parenthesis rest
  | operator op rest h => exact .operator op rest (Nat.lt_of_lt_of_le h hle)
  | question rest h => exact .question rest (Nat.lt_of_lt_of_le h hle)
  | colon rest => exact .colon rest

/-- No operator has the rank of the minus sign. -/
theorem minus_of_power (h : Ends 8 tail) : Ends 7 tail := by
  cases h with
  | done => exact .done
  | parenthesis rest => exact .parenthesis rest
  | operator op rest h =>
    rcases op.rank_cases with ⟨-, hle, -⟩ | rfl
    · exact .operator op rest (Nat.lt_succ_of_le hle)
    · exact absurd h (by decide)
  | question rest h => exact .question rest (by decide)
  | colon rest => exact .colon rest

theorem dropWhile_cases (h : Ends place tail) : tail.dropWhile (· == ' ') = [] ∨
    ∃ w ∈ endings place, ∃ rest, tail.dropWhile (· == ' ') = w ++ rest := by
  cases h with
  | done => exact .inl rfl
  | parenthesis rest => exact .inr ⟨[')'], by simp [endings], rest, rfl⟩
  | operator op rest h =>
    obtain ⟨x, more, hop, hx⟩ := op.symbol_eq_cons
    refine .inr ⟨op.symbol.toList ++ [' '], ?_, rest, ?_⟩
    · simp only [endings, List.mem_append, List.mem_map, List.mem_filter, decide_eq_true_eq]
      exact .inr ⟨op, ⟨op.mem_all, h⟩, rfl⟩
    · rw [List.dropWhile_cons_of_pos (by decide), hop, List.cons_append, List.dropWhile_cons_of_neg (by rw [hx]; decide)]
      simp
  | question rest h => exact .inr ⟨['?', ' '], by simp [endings, h], rest, rfl⟩
  | colon rest => exact .inr ⟨[':', ' '], by simp [endings], rest, rfl⟩

theorem symbol_fails {o : String} (h : Ends place c.rest) (hne : o.toList.isEmpty = false)
    (hapart : ∀ w ∈ endings place, apart o.toList w = true) : symbol o c = .fail := by
  refine symbol_of_not_prefix ?_
  rw [Cursor.rest_skipBlanks]
  rcases h.dropWhile_cases with hend | ⟨w, hw, rest, hrest⟩
  · rw [hend]
    exact not_prefix_of_end hne
  · rw [hrest]
    exact not_prefix_of_apart (hapart w hw) rest

/-- What follows an operand continues no word or numeral and starts no index and no arguments. -/
theorem head_ne (h : Ends place tail) {p : Char → Bool} (hp : p ')' = false ∧ p ' ' = false) :
    tail.head?.any p = false := by
  cases h with
  | done => rfl
  | parenthesis rest => exact hp.1
  | operator op rest h => exact hp.2
  | question rest h => exact hp.2
  | colon rest => exact hp.2

/-- The places of operands differ in what can follow only up to the rank of the tightest connective. -/
theorem anywhere (h : Ends place tail) : Ends 10 tail := by
  cases h with
  | done => exact .done
  | parenthesis rest => exact .parenthesis rest
  | operator op rest h => exact .operator op rest (Nat.lt_of_le_of_lt op.rank_le (by decide))
  | question rest h => exact .question rest (by decide)
  | colon rest => exact .colon rest

/-- No word starts there. -/
theorem keyword_fails {word : String} (h : Ends place c.rest) (hword : word ∈ keywords) : keyword word c = .fail := by
  refine keyword_of_head ?_ hword
  rw [Cursor.rest_skipBlanks]
  rcases h.anywhere.dropWhile_cases with hend | ⟨w, hw, rest, hrest⟩
  · rw [hend]
    rfl
  · have hfirst := (by decide : ∀ w ∈ endings 10, w ≠ [] ∧ w.head?.any (fun x => x.isAlpha || x == '_') = false) w hw
    obtain ⟨x, more, rfl⟩ := List.exists_cons_of_ne_nil hfirst.1
    rw [hrest]
    exact hfirst.2

end Ends

/-! ## Operators -/

/-- The operators of the level with the given rank. -/
def levelAt (place : Nat) : Level := (levels.drop (place - 1)).headD []

/-- A spelling with a blank behind it. -/
theorem spelling_of_rest {o : String} {c : Cursor} {text : List Char} (ho : o.toList ≠ [])
    (hc : c.skipBlanks.rest = o.toList ++ ' ' :: text) : ∃ x, spelling o c = .done () ⟨some x, ' ' :: text⟩ := by
  have hsplit : o.toList = o.toList.dropLast ++ [o.toList.getLast ho] := (List.dropLast_concat_getLast ho).symm
  have hsymbol := symbol_of_rest hsplit hc
  refine ⟨o.toList.getLast ho, ?_⟩
  unfold spelling
  split
  · rw [bind_of_done hsymbol]
    exact notAhead_of_fail (adjacent_of_head rfl)
  · exact hsymbol

/-- An operator of a level with a blank on each side. The spellings before it in the level are none of its text. -/
theorem operator_of_text {op : Connective} {c : Cursor} {text : List Char}
    (hc : c.rest = ' ' :: (op.symbol.toList ++ ' ' :: text)) (hs : Starts text) : ∀ {level : Level},
    (op.symbol, op) ∈ level →
    (∀ o ∈ level.takeWhile (· ≠ (op.symbol, op)), apart o.1.toList (op.symbol.toList ++ [' ']) = true) →
    ∃ x, level.operator c = .done op ⟨some x, ' ' :: text⟩
  | [], hmem, _ => absurd hmem List.not_mem_nil
  | o :: level, hmem, hbefore => by
    obtain ⟨y, more, hop, hy⟩ := op.symbol_eq_cons
    have hskip : c.skipBlanks.rest = op.symbol.toList ++ ' ' :: text := by
      rw [Cursor.rest_skipBlanks, hc, List.dropWhile_cons_of_pos (by decide), hop, List.cons_append,
        List.dropWhile_cons_of_neg (by rw [hy]; decide)]
    by_cases ho : o = (op.symbol, op)
    · obtain ⟨x, hread⟩ := spelling_of_rest (by rw [hop]; exact List.cons_ne_nil y more) hskip
      refine ⟨x, orElse_of_done ?_⟩
      rw [ho, bind_of_done hread, bind_of_done (hs.newlines hs.at_behind_blank)]
      rfl
    · rw [List.takeWhile_cons_of_pos (by simpa using ho), List.forall_mem_cons] at hbefore
      have hsymbol : symbol o.1 c = .fail := by
        refine symbol_of_not_prefix ?_
        have htext : op.symbol.toList ++ ' ' :: text = (op.symbol.toList ++ [' ']) ++ text := by simp
        rw [hskip, htext]
        exact not_prefix_of_apart hbefore.1 text
      obtain ⟨x, hread⟩ := operator_of_text hc hs (List.mem_of_ne_of_mem (Ne.symm ho) hmem) hbefore.2
      exact ⟨x, (operator_cons_of_fail hsymbol).trans hread⟩

/-- The level of a connective holds it, and the spellings before it are not confused with it. -/
theorem mem_levelAt {op : Connective} (h : op.rank ≤ 6) : (op.symbol, op) ∈ levelAt op.rank ∧
    ∀ o ∈ (levelAt op.rank).takeWhile (· ≠ (op.symbol, op)), apart o.1.toList (op.symbol.toList ++ [' ']) = true :=
  (by decide : ∀ op ∈ Connective.all, op.rank ≤ 6 → (op.symbol, op) ∈ levelAt op.rank ∧
    ∀ o ∈ (levelAt op.rank).takeWhile (· ≠ (op.symbol, op)), apart o.1.toList (op.symbol.toList ++ [' ']) = true)
    op op.mem_all h

/-- No operator of a level can follow an operand of its rank. -/
theorem apart_of_mem_levelAt {place : Nat} (h : place ≤ 6) :
    ∀ o ∈ levelAt place, o.1.toList.isEmpty = false ∧ ∀ w ∈ endings place, apart o.1.toList w = true :=
  (by decide : ∀ place < 7, ∀ o ∈ levelAt place, o.1.toList.isEmpty = false ∧ ∀ w ∈ endings place, apart o.1.toList w = true)
    place (Nat.lt_succ_of_le h)

theorem Ends.operator_fails {place : Nat} {c : Cursor} (h : Ends place c.rest) (hle : place ≤ 6) :
    (levelAt place).operator c = .fail :=
  operator_of_fail fun o ho => h.symbol_fails (apart_of_mem_levelAt hle o ho).1 (apart_of_mem_levelAt hle o ho).2

/-! ## Places -/

section

variable (nested : Phrase → Parser Term)

/-- Reads an operand at a place of the given rank. -/
def operandAt (place : Nat) : Parser Term :=
  if place = 0 then expression nested
  else if place ≤ 7 then chain (signed nested) (levels.drop (place - 1)) (signed nested)
  else if place = 8 then power nested (negated nested)
  else if place = 9 then negated nested
  else indexed nested

/-- Reads the text as operands and operators of one level, and stands behind all that binds more tightly. -/
def Leads (place : Nat) (text : List Char) (t : Term) : Prop :=
  ∀ c tail, c.At (text ++ tail) → Ends (place + 1) tail → ∃ c' n,
    operandAt nested place c = leftChain (levelAt place).operator (operandAt nested (place + 1)) n t c' ∧
      c'.rest = tail ∧ tail.length ≤ n

end

variable {nested : Phrase → Parser Term} {place : Nat} {text : List Char} {t : Term}

theorem operandAt_eq (hlow : 1 ≤ place) (hhigh : place ≤ 6) : operandAt nested place =
    (do
      let left ← operandAt nested (place + 1)
      fun c => leftChain (levelAt place).operator (operandAt nested (place + 1)) c.rest.length left c) :=
  match place, hlow, hhigh with
  | 1, _, _ | 2, _, _ | 3, _, _ | 4, _, _ | 5, _, _ | 6, _, _ => rfl

namespace Leads

/-- An operand that binds more tightly. -/
theorem of_tighter (hlow : 1 ≤ place) (hhigh : place ≤ 6)
    (h : ReadsBefore (Ends (place + 1)) (operandAt nested (place + 1)) text t) : Leads nested place text t := by
  intro c tail hc ht
  obtain ⟨c', hread, hrest⟩ := h c tail hc ht
  refine ⟨c', c'.rest.length, ?_, hrest, Nat.le_of_eq (congrArg List.length hrest.symm)⟩
  rw [operandAt_eq hlow hhigh]
  exact bind_of_done hread

/-- One more operator of the level and its right operand. -/
theorem binary {op : Connective} {right : List Char} {r : Term} (hhigh : op.rank ≤ 6) (h : Leads nested op.rank text t)
    (hs : Starts right) (hr : ReadsBefore (Ends (op.rank + 1)) (operandAt nested (op.rank + 1)) right r) :
    Leads nested op.rank (text ++ ' ' :: (op.symbol.toList ++ ' ' :: right)) (.binary op t r) := by
  intro c tail hc ht
  let behind := ' ' :: (op.symbol.toList ++ ' ' :: (right ++ tail))
  have htext : text ++ ' ' :: (op.symbol.toList ++ ' ' :: right) ++ tail = text ++ behind := by simp [behind]
  rw [htext] at hc
  obtain ⟨c₁, n, hleft, hrest₁, hn⟩ := h c behind hc (.operator op (right ++ tail) (Nat.lt_succ_self _))
  obtain ⟨m, rfl⟩ : ∃ m, n = m + 1 := by
    rw [List.length_cons] at hn
    exact ⟨n - 1, by omega⟩
  obtain ⟨x, hop⟩ := operator_of_text hrest₁ (hs.append tail) (mem_levelAt hhigh).1 (mem_levelAt hhigh).2
  obtain ⟨c₂, hright, hrest₂⟩ := hr ⟨some x, ' ' :: (right ++ tail)⟩ tail (hs.append tail).at_behind_blank ht
  refine ⟨c₂, m, ?_, hrest₂, ?_⟩
  · rw [hleft]
    simp only [leftChain, hop, hright]
  · simp only [behind, List.length_cons, List.length_append] at hn
    omega

theorem reads (hhigh : place ≤ 6) (h : Leads nested place text t) :
    ReadsBefore (Ends place) (operandAt nested place) text t := by
  intro c tail hc ht
  obtain ⟨c', n, hread, hrest, -⟩ := h c tail hc (ht.mono (Nat.le_succ place))
  refine ⟨c', ?_, hrest⟩
  rw [hread]
  exact leftChain_of_fail ((hrest ▸ ht : Ends place c'.rest).operator_fails hhigh) n

end Leads

/-- A place reads what the next tighter one reads, if no operator of its own stands there. -/
theorem reads_of_tighter (h : ReadsBefore (Ends (place + 1)) (operandAt nested (place + 1)) text t) (hs : Starts text)
    (hminus : place = 7 → text.head? ≠ some '-') (hmark : place = 9 → text.head? ≠ some '!') :
    ReadsBefore (Ends place) (operandAt nested place) text t := by
  have hfront {c : Cursor} {tail : List Char} {x : Char} (hc : c.At (text ++ tail)) (hx : text.head? ≠ some x) :
      c.skipBlanks.rest.head?.any (· == x) = false := by
    obtain ⟨y, rest, rfl, -⟩ := hs
    rw [hc.rest_eq]
    exact beq_eq_false_iff_ne.mpr fun hy => hx (congrArg some hy)
  match place with
  | 0 =>
    intro c tail hc ht
    obtain ⟨c', hread, hrest⟩ := h c tail hc (ht.mono (Nat.zero_le 1))
    have hquestion : (do symbol "?"; newlines : Parser Unit) c' = .fail :=
      bind_of_fail ((hrest ▸ ht : Ends 0 c'.rest).symbol_fails (by decide) (by decide))
    refine ⟨c', ?_, hrest⟩
    show expressionFrom nested (signed nested) c = _
    rw [expressionFrom]
    refine (bind_of_done hread).trans ?_
    rw [bind_of_done (optional_of_fail hquestion)]
    rfl
  | 1 | 2 | 3 | 4 | 5 | 6 => exact (Leads.of_tighter (by decide) (by decide) h).reads (by decide)
  | 7 =>
    intro c tail hc ht
    obtain ⟨c', hread, hrest⟩ := h c tail hc (ht.mono (by decide))
    exact ⟨c', (orElse_of_fail (bind_of_fail (symbol_of_head rfl (hfront hc (hminus rfl))))).trans hread, hrest⟩
  | 8 =>
    intro c tail hc ht
    obtain ⟨c', hread, hrest⟩ := h c tail hc (ht.mono (by decide))
    have hstars : (do symbol "**"; newlines; nested .signed : Parser Term) c' = .fail :=
      bind_of_fail ((hrest ▸ ht : Ends 8 c'.rest).symbol_fails (by decide) (by decide))
    refine ⟨c', ?_, hrest⟩
    show power nested (negated nested) c = _
    rw [power]
    refine (bind_of_done hread).trans ?_
    rw [bind_of_done (optional_of_fail hstars)]
    rfl
  | 9 =>
    intro c tail hc ht
    obtain ⟨c', hread, hrest⟩ := h c tail hc (ht.mono (by decide))
    exact ⟨c', (orElse_of_fail (bind_of_fail (symbol_of_head rfl (hfront hc (hmark rfl))))).trans hread, hrest⟩
  | place + 10 =>
    intro c tail hc ht
    have hsame : operandAt nested (place + 10) = operandAt nested (place + 10 + 1) := by simp [operandAt]
    rw [hsame]
    exact h c tail hc (ht.mono (Nat.le_succ _))

/-- All looser places read what a place reads. -/
theorem reads_looser {high : Nat} (h : ReadsBefore (Ends high) (operandAt nested high) text t) (hs : Starts text)
    (hminus : 8 ≤ high → text.head? ≠ some '-') (hmark : 10 ≤ high → text.head? ≠ some '!') (n : Nat) :
    ∀ {place : Nat}, place + n = high → ReadsBefore (Ends place) (operandAt nested place) text t := by
  induction n with
  | zero =>
    intro place hplace
    obtain rfl : place = high := hplace
    exact h
  | succ n ih =>
    intro place hplace
    exact reads_of_tighter (ih (by omega)) hs (fun h7 => hminus (by omega)) (fun h9 => hmark (by omega))

/-! ## Operands without operators -/

/-- No reserved word stands where a longer or a shorter word does. -/
theorem keyword_of_word {word : String} {c : Cursor} {stem tail : List Char} (h : c.skipBlanks.rest = stem ++ tail)
    (hstem : ∀ x ∈ stem, isAsciiWord x = true) (ht : tail.head?.any isAsciiWord = false)
    (hword : ∀ x ∈ word.toList, isAsciiWord x = true) (hne : word.toList ≠ stem) : keyword word c = .fail := by
  rw [keyword_eq]
  refine if_neg fun hcond => ?_
  simp only [Bool.and_eq_true, Bool.not_eq_true'] at hcond
  obtain ⟨⟨hstarts, -⟩, hbehind⟩ := hcond
  obtain ⟨rest, hrest⟩ := List.isPrefixOf_iff_prefix.mp hstarts
  rw [← hrest, List.drop_left] at hbehind
  rw [h] at hrest
  rcases List.append_eq_append_iff.mp hrest with ⟨more, hmore, htext⟩ | ⟨more, hmore, htext⟩
  · cases more with
    | nil => exact hne (by rw [hmore, List.append_nil])
    | cons x more =>
      have hx : isAsciiWord x = true := hstem x (by rw [hmore]; simp)
      rw [htext] at hbehind
      have hjoins : joinsKeyword x = false := hbehind
      rw [joinsKeyword, hx] at hjoins
      cases hjoins
  · cases more with
    | nil => exact hne (by rw [hmore, List.append_nil])
    | cons x more =>
      have hx : isAsciiWord x = true := hword x (by rw [hmore]; simp)
      rw [htext] at ht
      exact Bool.false_ne_true (ht.symm.trans hx)

/-- Whether a character right behind a name could belong to the name, start its arguments or an index. -/
def continuesName (x : Char) : Bool := isAsciiWord x || ['?', '!', '=', '(', '['].contains x

/-- The text does not start with such a character. -/
def Detached (tail : List Char) : Prop := tail.head?.any continuesName = false

theorem Ends.detached {place : Nat} {tail : List Char} (h : Ends place tail) : Detached tail := h.head_ne (by decide)

namespace Detached

variable {tail : List Char}

theorem head_ne (h : Detached tail) {p : Char → Bool} (hp : ∀ x, p x = true → continuesName x = true) :
    tail.head?.any p = false := by
  cases tail with
  | nil => rfl
  | cons x rest => exact Bool.eq_false_iff.mpr fun hx => Bool.false_ne_true (h.symm.trans (hp x hx))

theorem head_not_word (h : Detached tail) : tail.head?.any isAsciiWord = false :=
  h.head_ne fun _ hx => Bool.or_eq_true_iff.mpr (.inl hx)

theorem head_ne_char (h : Detached tail) {y : Char} (hy : continuesName y = true) : tail.head?.any (· == y) = false :=
  h.head_ne fun x hx => by rwa [eq_of_beq hx]

end Detached

namespace Name

variable {c : Cursor} {tail : List Char}

/-- What stands behind the stem of a name. -/
theorem head_behind_stem (x : Name) (ht : Detached tail) : (x.mark.toList ++ tail).head?.any isAsciiWord = false := by
  cases hmark : x.mark with
  | none => exact ht.head_not_word
  | some m => rcases x.eq_of_mem_mark m (by rw [hmark]; rfl) with rfl | rfl <;> rfl

theorem keyword_fails (x : Name) {word : String} (hword : word ∈ keywords) (hc : c.At (x.text ++ tail))
    (ht : Detached tail) : keyword word c = .fail := by
  have hrest : c.skipBlanks.rest = (x.first :: x.more) ++ (x.mark.toList ++ tail) := by
    rw [hc.rest_eq, text, List.append_assoc]
  refine keyword_of_word hrest (fun y hy => ?_) (x.head_behind_stem ht) ?_ ?_
  · rcases List.mem_cons.mp hy with rfl | hy
    · exact isAsciiWord_of_startsName x.startsName_first
    · exact x.isAsciiWord_more y hy
  · exact List.all_eq_true.mp ((by decide : ∀ word ∈ keywords, word.toList.all isAsciiWord = true) word hword)
  · intro heq
    refine x.not_keyword ?_
    rw [← heq, String.ofList_toList]
    exact hword

theorem reads_identifier (x : Name) : ReadsBefore Detached identifier x.text (String.ofList x.text) := by
  intro c tail hc ht
  have hkeyword : anyKeyword c = .fail := anyKeyword_of_fail fun w hw => x.keyword_fails hw hc ht
  have hrest : c.skipBlanks.rest = x.first :: (x.more ++ (x.mark.toList ++ tail)) := by
    rw [hc.rest_eq, text, List.append_assoc]
    rfl
  have hfirst := satisfying_of_rest (p := fun c => c.isAlpha || c == '_') hrest x.startsName_first
  obtain ⟨c₁, hmore, hrest₁⟩ := takeWhile_of_rest (c := ⟨some x.first, x.more ++ (x.mark.toList ++ tail)⟩) rfl
    x.isAsciiWord_more (x.head_behind_stem ht)
  have hequals : tail.head?.any (· == '=') = false := ht.head_ne_char (by decide)
  obtain ⟨c₂, hmark, hrest₂⟩ : ∃ c₂, optional nameMark c₁ = .done x.mark c₂ ∧ c₂.rest = tail := by
    cases hm : x.mark with
    | none =>
      rw [hm] at hrest₁
      have hnone : nameMark c₁ = .fail := bind_of_fail (satisfying_of_head (by
        rw [hrest₁]
        refine ht.head_ne fun y hy => ?_
        rcases Bool.or_eq_true_iff.mp hy with hy | hy <;> rw [eq_of_beq hy] <;> decide))
      exact ⟨c₁, optional_of_fail hnone, hrest₁⟩
    | some m =>
      rw [hm] at hrest₁
      have hm' : (m == '?' || m == '!') = true := by
        rcases x.eq_of_mem_mark m (by rw [hm]; rfl) with rfl | rfl <;> decide
      have hread := satisfying_of_rest (p := fun c => c == '?' || c == '!') hrest₁ hm'
      refine ⟨⟨some m, tail⟩, optional_of_done ?_, rfl⟩
      rw [nameMark, bind_of_done hread, bind_of_done (notAhead_of_fail (adjacent_of_head hequals))]
      rfl
  refine ⟨c₂, ?_, hrest₂⟩
  rw [identifier, bind_of_done (notAhead_of_fail hkeyword), bind_of_done (blanks_eq c), bind_of_done hfirst, bind_of_done hmore,
    bind_of_done hmark]
  rfl

theorem reads_primary (x : Name) : ReadsBefore Detached (primary nested) x.text (.name (String.ofList x.text)) := by
  intro c tail hc ht
  obtain ⟨c', hread, hrest⟩ := x.reads_identifier c tail hc ht
  have hskip : c.skipBlanks.rest = x.first :: (x.more ++ x.mark.toList ++ tail) := hc.rest_eq
  have hletter : (x.first.isAlpha || x.first == '_') = true := x.startsName_first
  have hdigit : isDecimalDigit x.first = false := Bool.eq_false_iff.mpr fun h =>
    Bool.false_ne_true ((not_letter_of_isDecimalDigit h).symm.trans hletter)
  have hne {y : Char} (hy : startsName y = false) : (x.first == y) = false := beq_eq_false_iff_ne.mpr fun h =>
    Bool.false_ne_true (hy.symm.trans (h ▸ x.startsName_first))
  have hsymbol : ∀ o ∈ ["[", "\x7b", "("], symbol o c = .fail := by
    have hone {o : String} {y : Char} (ho : o.toList = [y]) (hy : startsName y = false) : symbol o c = .fail :=
      symbol_of_head ho (by rw [hskip]; exact hne hy)
    simp only [List.forall_mem_cons]
    exact ⟨hone (y := '[') rfl (by decide), hone (y := '\x7b') rfl (by decide), hone (y := '(') rfl (by decide),
      fun _ hmem => absurd hmem List.not_mem_nil⟩
  have hnumeral : numeral c = .fail := numeral_of_head (by rw [hskip]; exact hdigit)
  have hstring : stringLiteral c = .fail := stringLiteral_of_ne hskip ⟨hne (by decide), hne (by decide)⟩
  have hcall : callWithParentheses nested c = .fail := by
    rw [callWithParentheses, bind_of_done hread]
    exact bind_of_fail (adjacent_of_head (by rw [hrest]; exact ht.head_ne_char (by decide)))
  refine ⟨c', ?_, hrest⟩
  rw [primary_of_no_opening hnumeral hstring hsymbol fun w hw => x.keyword_fails hw hc ht]
  exact (orElse_of_fail hcall).trans (map_of_done hread)

end Name

namespace Formula

variable {f : Formula} {n : Nat}

/-- A formula without operators. -/
theorem reads_atom (hf : f.Short) (hrank : f.rank = 10) : ReadsBefore (Ends 10) (indexed nested) f.text f.term := by
  intro c tail hc ht
  have hprimary : ∃ c', primary nested c = .done f.term c' ∧ c'.rest = tail := by
    cases f with
    | name x => exact x.reads_primary c tail hc ht.detached
    | numeral n =>
      obtain ⟨c', hrest, hread⟩ := numeral_of_digits hc.rest_eq n.isDigit_first n.isDigit_more (ht.head_ne (by decide))
      have hlength : ((n.first :: n.more).filter (· ≠ '_')).length ≤ maxDigits := hf
      rw [if_neg (Nat.not_lt_of_le hlength)] at hread
      exact ⟨c', orElse_of_done (map_of_done hread), hrest⟩
    | truth b => cases b with
      | true =>
        exact primary_of_literalWord (by simp [literalWords] : ("true", Literal.bool true) ∈ literalWords) hc (ht.head_ne (by decide))
      | false =>
        exact primary_of_literalWord (by simp [literalWords] : ("false", Literal.bool false) ∈ literalWords) hc (ht.head_ne (by decide))
    | nil =>
      exact primary_of_literalWord (by simp [literalWords] : ("nil", Literal.nil) ∈ literalWords) hc (ht.head_ne (by decide))
    | negation operand => exact absurd hrank (by decide : 9 ≠ 10)
    | minus operand => exact absurd hrank (by decide : 7 ≠ 10)
    | binary op left right => exact absurd (hrank ▸ op.rank_le : 10 ≤ 8) (by decide)
    | choice test yes no => exact absurd hrank (by decide : 0 ≠ 10)
  obtain ⟨c', hread, hrest⟩ := hprimary
  exact ⟨c', indexed_of_done hread (by rw [hrest]; exact ht.head_ne (by decide)), hrest⟩

end Formula

/-- A statement in parentheses is an operand. -/
theorem reads_parenthesized (hs : Starts text) (h : ReadsBefore (Ends 0) (nested .statement) text t) :
    ReadsBefore (Ends 10) (indexed nested) ('(' :: (text ++ [')'])) t := by
  intro c tail hc ht
  have hrest : c.skipBlanks.rest = '(' :: (text ++ ')' :: tail) := by
    rw [hc.rest_eq, List.cons_append, List.append_assoc]
    rfl
  have hat : Cursor.At ⟨some '(', text ++ ')' :: tail⟩ (text ++ ')' :: tail) := (hs.append _).at_behind (by decide)
  have hopen : symbol "(" c = .done () ⟨some '(', text ++ ')' :: tail⟩ := symbol_of_rest (w := []) rfl hrest
  obtain ⟨c₁, hread, hrest₁⟩ := h _ _ hat (.parenthesis tail)
  have hskip : c₁.skipBlanks.rest = ')' :: tail := by rw [Cursor.skipBlanks_of_ne hrest₁ (by decide), hrest₁]
  have hclose : symbol ")" c₁ = .done () ⟨some ')', tail⟩ := symbol_of_rest (w := []) rfl hskip
  have hparenthesized : parenthesized nested c = .done t ⟨some ')', tail⟩ := by
    rw [parenthesized, bind_of_done hopen, bind_of_done ((hs.append _).newlines hat), bind_of_done hread,
      bind_of_done (newlines_of_ne hskip (by decide)), bind_of_done hclose]
    rfl
  refine ⟨⟨some ')', tail⟩, indexed_of_done ?_ (ht.head_ne (by decide)), rfl⟩
  refine (primary_of_mark hrest (by decide) (by decide)).trans ?_
  refine (orElse_of_fail (bind_of_fail (symbol_of_ne hrest (by decide)))).trans ?_
  refine (orElse_of_fail (bind_of_fail (symbol_of_ne hrest (by decide)))).trans ?_
  exact orElse_of_done hparenthesized

/-! ## Formulas in their places -/

/-- There is nothing at the cursor, or an unequal sign, which no value starts with. -/
def NoValue (c : Cursor) : Prop := c.skipBlanks.rest = [] ∨ ∃ rest, c.skipBlanks.rest = '!' :: '=' :: rest

/-- The phrases that can be nested read the formulas that are written at their places, if they are shorter than `n`. -/
structure Understands (nested : Phrase → Parser Term) (n : Nat) : Prop where
  negated : ∀ f : Formula, f.Short → (f.textAt 9).length < n → ReadsBefore (Ends 9) (nested .negated) (f.textAt 9) f.term
  signed : ∀ f : Formula, f.Short → (f.textAt 7).length < n → ReadsBefore (Ends 7) (nested .signed) (f.textAt 7) f.term
  expression : ∀ f : Formula, f.Short → f.text.length < n → ReadsBefore (Ends 0) (nested .expression) f.text f.term
  statement : ∀ f : Formula, f.Short → f.text.length < n → ReadsBefore (Ends 0) (nested .statement) f.text f.term
  value_fails : 0 < n → ∀ c, NoValue c → nested .value c = .fail

/-- The formula is read at places of its own rank. -/
structure ReadsOwn (nested : Phrase → Parser Term) (f : Formula) : Prop where
  reads : ReadsBefore (Ends f.rank) (operandAt nested f.rank) f.text f.term
  leads : 1 ≤ f.rank → f.rank ≤ 6 → Leads nested f.rank f.text f.term

namespace ReadsOwn

variable {f : Formula} {n : Nat}

theorem textAt (h : ReadsOwn nested f) (hn : Understands nested n) (hf : f.Short) (hplace : place ≤ 10)
    (hlen : (f.textAt place).length ≤ n) : ReadsBefore (Ends place) (operandAt nested place) (f.textAt place) f.term := by
  by_cases hrank : place ≤ f.rank
  · rw [Formula.textAt_of_le hrank]
    exact reads_looser h.reads f.inked_text.starts Formula.head_text_ne_minus Formula.head_text_ne_mark
      (f.rank - place) (by omega)
  · rw [Formula.textAt_of_lt (Nat.lt_of_not_le hrank)] at hlen ⊢
    rw [List.length_cons, List.length_append] at hlen
    have hread : ReadsBefore (Ends 10) (operandAt nested 10) ('(' :: (f.text ++ [')'])) f.term :=
      reads_parenthesized f.inked_text.starts (hn.statement f hf (by omega))
    exact reads_looser hread ⟨'(', _, rfl, by decide, by decide⟩ (fun _ h => absurd (Option.some.inj h) (by decide))
      (fun _ h => absurd (Option.some.inj h) (by decide)) (10 - place) (by omega)

theorem leads_textAt (h : ReadsOwn nested f) (hn : Understands nested n) (hf : f.Short) (hlow : 1 ≤ place) (hhigh : place ≤ 6)
    (hlen : (f.textAt place).length ≤ n) : Leads nested place (f.textAt place) f.term := by
  by_cases hrank : place = f.rank
  · subst hrank
    rw [Formula.textAt_of_le (Nat.le_refl _)]
    exact h.leads hlow hhigh
  · have hsame : f.textAt place = f.textAt (place + 1) := by
      by_cases hlt : place < f.rank
      · rw [Formula.textAt_of_le (Nat.le_of_lt hlt), Formula.textAt_of_le hlt]
      · rw [Formula.textAt_of_lt (by omega), Formula.textAt_of_lt (by omega)]
    rw [hsame] at hlen ⊢
    exact .of_tighter hlow hhigh (h.textAt hn hf (by omega) hlen)

end ReadsOwn

namespace Formula

variable {f : Formula} {n : Nat}

theorem starts_textAt (f : Formula) (place : Nat) : Starts (f.textAt place) := (f.inked_textAt place).starts

/-- A negation and its operand. -/
theorem reads_negation (hn : Understands nested n) (hf : f.Short) (hlen : (negation f).text.length ≤ n) :
    ReadsBefore (Ends 9) (operandAt nested 9) (negation f).text (negation f).term := by
  intro c tail hc ht
  let operand := f.textAt 9 ++ tail
  have hrest : c.skipBlanks.rest = '!' :: operand := hc.rest_eq
  have hlength : (f.textAt 9).length < n := Nat.lt_of_succ_le (by rwa [text, List.length_cons] at hlen)
  have hstarts : Starts operand := (f.starts_textAt 9).append tail
  have hmark : symbol "!" c = .done () ⟨some '!', operand⟩ := symbol_of_rest (w := []) rfl hrest
  obtain ⟨c', hread, hrest'⟩ := hn.negated f hf hlength _ tail (hstarts.at_behind (x := '!') (by decide)) ht
  have hequals : operand.head?.any (· == '=') = false := by
    obtain ⟨x, rest, hx, -⟩ := (f.inked_textAt 9).first
    have hne : (f.textAt 9).head? ≠ some '=' := head_enclosed_ne (by decide) 9 fun _ => f.head_text_ne_equals
    rw [hx] at hne
    simp only [operand, hx]
    exact beq_eq_false_iff_ne.mpr fun heq => hne (congrArg some heq)
  refine ⟨c', orElse_of_done ?_, hrest'⟩
  rw [Syntax.negation, bind_of_done hmark, bind_of_done (notAhead_of_fail (adjacent_of_head hequals)), bind_of_done hread]
  rfl

/-- A sign and its operand. -/
theorem reads_minus (hn : Understands nested n) (hf : f.Short) (hlen : (minus f).text.length ≤ n) :
    ReadsBefore (Ends 7) (operandAt nested 7) (minus f).text (minus f).term := by
  intro c tail hc ht
  let operand := f.textAt 7 ++ tail
  have hrest : c.skipBlanks.rest = '-' :: operand := hc.rest_eq
  have hlength : (f.textAt 7).length < n := Nat.lt_of_succ_le (by rwa [text, List.length_cons] at hlen)
  have hstarts : Starts operand := (f.starts_textAt 7).append tail
  have hsign : symbol "-" c = .done () ⟨some '-', operand⟩ := symbol_of_rest (w := []) rfl hrest
  obtain ⟨c', hread, hrest'⟩ := hn.signed f hf hlength _ tail (hstarts.at_behind (x := '-') (by decide)) ht
  refine ⟨c', orElse_of_done ?_, hrest'⟩
  rw [Syntax.minus, bind_of_done hsign, bind_of_done hread]
  rfl

/-- A base and its exponent. -/
theorem reads_power {left right : Formula} (hn : Understands nested n) (hr : right.Short) (hlen : (right.textAt 7).length < n)
    (hleft : ReadsBefore (Ends 9) (operandAt nested 9) (left.textAt 9) left.term) :
    ReadsBefore (Ends 8) (operandAt nested 8) (binary (.core .pow) left right).text (binary (.core .pow) left right).term := by
  intro c tail hc ht
  let exponent := right.textAt 7 ++ tail
  have htext : (binary (.core .pow) left right).text ++ tail =
      left.textAt 9 ++ ' ' :: ("**".toList ++ ' ' :: exponent) := by
    simp [text, textAt, exponent, Connective.symbol, BinaryOp.symbol, Connective.leftRank, Connective.rightRank]
  rw [htext] at hc
  obtain ⟨c₁, hbase, hrest₁⟩ := hleft c _ hc (.operator (.core .pow) exponent (by decide))
  have hstarts : Starts exponent := (right.starts_textAt 7).append tail
  have hskip : c₁.skipBlanks.rest = "**".toList ++ ' ' :: exponent := by
    rw [Cursor.rest_skipBlanks, hrest₁]
    rfl
  have hstars : symbol "**" c₁ = .done () ⟨some '*', ' ' :: exponent⟩ := symbol_of_rest (w := ['*']) rfl hskip
  obtain ⟨c₂, hexponent, hrest₂⟩ := hn.signed right hr hlen _ tail hstarts.at_behind_blank ht.minus_of_power
  have hpower : (do symbol "**"; newlines; nested .signed : Parser Term) c₁ = .done right.term c₂ := by
    rw [bind_of_done hstars, bind_of_done (hstarts.newlines hstarts.at_behind_blank), hexponent]
  refine ⟨c₂, ?_, hrest₂⟩
  show power nested (negated nested) c = _
  rw [power]
  refine (bind_of_done hbase).trans ?_
  rw [bind_of_done (optional_of_done hpower)]
  rfl

/-- A test and its two branches. -/
theorem reads_choice {test yes no : Formula} (hn : Understands nested n) (hy : yes.Short) (hno : no.Short)
    (hlen : yes.text.length < n ∧ no.text.length < n)
    (htest : ReadsBefore (Ends 1) (operandAt nested 1) (test.textAt 1) test.term) :
    ReadsBefore (Ends 0) (operandAt nested 0) (choice test yes no).text (choice test yes no).term := by
  intro c tail hc ht
  let second := no.text ++ tail
  let branches := yes.text ++ ' ' :: ':' :: ' ' :: second
  have htext : (choice test yes no).text ++ tail = test.textAt 1 ++ ' ' :: '?' :: ' ' :: branches := by
    simp [text, textAt, branches, second]
  rw [htext] at hc
  have hyes : Starts branches := yes.inked_text.starts.append _
  have hsecond : Starts second := no.inked_text.starts.append tail
  obtain ⟨c₁, hread₁, hrest₁⟩ := htest c _ hc (.question branches (by decide))
  have hskip₁ : c₁.skipBlanks.rest = '?' :: ' ' :: branches := by
    rw [Cursor.rest_skipBlanks, hrest₁]
    rfl
  have hquestion : symbol "?" c₁ = .done () ⟨some '?', ' ' :: branches⟩ := symbol_of_rest (w := []) rfl hskip₁
  have hmark : (do symbol "?"; newlines : Parser Unit) c₁ = .done () ⟨some '?', ' ' :: branches⟩ := by
    rw [bind_of_done hquestion, hyes.newlines hyes.at_behind_blank]
  obtain ⟨c₂, hread₂, hrest₂⟩ := hn.expression yes hy hlen.1 _ _ (hyes.at_behind_blank (x := '?')) (.colon second)
  have hskip₂ : c₂.skipBlanks.rest = ':' :: ' ' :: second := by
    rw [Cursor.rest_skipBlanks, hrest₂]
    rfl
  have hcolon : symbol ":" c₂ = .done () ⟨some ':', ' ' :: second⟩ := symbol_of_rest (w := []) rfl hskip₂
  obtain ⟨c₃, hread₃, hrest₃⟩ := hn.expression no hno hlen.2 _ tail (hsecond.at_behind_blank (x := ':')) ht
  refine ⟨c₃, ?_, hrest₃⟩
  show expressionFrom nested (signed nested) c = _
  rw [expressionFrom]
  refine (bind_of_done hread₁).trans ?_
  rw [bind_of_done (optional_of_done hmark)]
  simp only
  rw [bind_of_done hread₂, bind_of_done hcolon, bind_of_done (hsecond.newlines hsecond.at_behind_blank), bind_of_done hread₃]
  rfl

/-- Every formula that is short enough is read at places of its own rank. -/
theorem readsOwn (hn : Understands nested n) : ∀ {f : Formula}, f.Short → f.text.length ≤ n → ReadsOwn nested f
  | name _, hf, _ | numeral _, hf, _ | truth _, hf, _ | nil, hf, _ =>
    ⟨reads_atom hf rfl, fun _ h => absurd h (by decide : ¬ 10 ≤ 6)⟩
  | negation _, hf, hlen => ⟨reads_negation hn hf hlen, fun _ h => absurd h (by decide : ¬ 9 ≤ 6)⟩
  | minus _, hf, hlen => ⟨reads_minus hn hf hlen, fun _ h => absurd h (by decide : ¬ 7 ≤ 6)⟩
  | binary op left right, hf, hlen => by
    have htext : (binary op left right).text = left.textAt op.leftRank ++ ' ' ::
      (op.symbol.toList ++ ' ' :: right.textAt op.rightRank) := rfl
    rw [htext, List.length_append, List.length_cons, List.length_append, List.length_cons] at hlen
    have hl := readsOwn hn hf.1 (Nat.le_trans (left.length_text_le op.leftRank) (by omega))
    have hr := readsOwn hn hf.2 (Nat.le_trans (right.length_text_le op.rightRank) (by omega))
    rcases op.rank_cases with ⟨hlow, hhigh, hop⟩ | rfl
    · have hleft : op.leftRank = op.rank := if_neg hop
      have hright : op.rightRank = op.rank + 1 := if_neg hop
      rw [hleft, hright] at hlen htext
      have hleads : Leads nested op.rank (binary op left right).text (binary op left right).term := by
        rw [htext]
        exact (hl.leads_textAt hn hf.1 hlow hhigh (by omega)).binary hhigh (right.starts_textAt _)
          (hr.textAt hn hf.2 (by omega) (by omega))
      exact ⟨hleads.reads hhigh, fun _ _ => hleads⟩
    · have hexponent : (right.textAt 7).length < n := by
        have hsame : Connective.rightRank (.core .pow) = 7 := rfl
        rw [hsame] at hlen
        omega
      have hbase : ReadsBefore (Ends 9) (operandAt nested 9) (left.textAt 9) left.term := hl.textAt hn hf.1 (by decide) (by
        have hsame : Connective.leftRank (.core .pow) = 9 := rfl
        rw [hsame] at hlen
        omega)
      exact ⟨reads_power hn hf.2 hexponent hbase, fun _ h => absurd h (by decide : ¬ 8 ≤ 6)⟩
  | choice test yes no, hf, hlen => by
    have htext : (choice test yes no).text = test.textAt 1 ++ ' ' :: '?' :: ' ' ::
      (yes.text ++ ' ' :: ':' :: ' ' :: no.text) := rfl
    simp only [htext, List.length_append, List.length_cons] at hlen
    have ht := readsOwn hn hf.1 (Nat.le_trans (test.length_text_le 1) (by omega))
    have htest : ReadsBefore (Ends 1) (operandAt nested 1) (test.textAt 1) test.term := ht.textAt hn hf.1 (by decide) (by omega)
    exact ⟨reads_choice hn hf.2.1 hf.2.2 ⟨by omega, by omega⟩ htest, fun h => absurd h (by decide : ¬ 1 ≤ 0)⟩

end Formula

end MinRuby.Syntax
