import MinRuby.Proofs.Syntax.Cut
import MinRuby.Proofs.Syntax.Hereditary
import MinRuby.Proofs.Syntax.Preparation

/-!
# String literals and line ends

What is read of a text ends outside a string literal and not with a backslash. So a source that can be read as a whole
is prepared for the parser without regard to the lines behind it, unless its last line is joined to them.

* `hereditary_balanced` — what any phrase reads is balanced.
* `parsedText_append` — the text that is parsed of a source with further lines behind it.
-/

namespace MinRuby.Syntax

open MinRuby.Text
open MinRuby.Syntax.Parser

/-- How a place stands to the string literals of the text before it. -/
inductive Quoting where
  | outside
  | inside (quote : Char)
  /-- In a literal, right behind a backslash. -/
  | escaped (quote : Char)

namespace Quoting

/-- The place behind one more character. -/
def step : Quoting → Char → Quoting
  | outside, c => if c = '"' ∨ c = '\'' then inside c else outside
  | inside quote, c => if c = '\\' then escaped quote else if c = quote then outside else inside quote
  | escaped quote, _ => inside quote

/-- The place behind a text. -/
def after (s : Quoting) (text : List Char) : Quoting := text.foldl step s

/-- The literal, if any, is one between quotes. -/
def Proper : Quoting → Prop
  | outside => True
  | inside quote | escaped quote => quote = '"' ∨ quote = '\''

theorem after_cons (s : Quoting) (c : Char) (w : List Char) : s.after (c :: w) = (s.step c).after w := rfl

theorem after_append (s : Quoting) (w w' : List Char) : s.after (w ++ w') = (s.after w).after w' := List.foldl_append

theorem Proper.step {s : Quoting} (h : s.Proper) (c : Char) : (s.step c).Proper := by
  cases s with
  | outside =>
    rw [Quoting.step]
    split
    · next hc => exact hc
    · exact h
  | inside quote =>
    rw [Quoting.step]
    split
    · exact h
    · split
      · trivial
      · exact h
  | escaped quote => exact h

/-- A character without a meaning for literals leaves a place outside them outside. -/
theorem step_outside {c : Char} (h : c ∉ literalMarks) : outside.step c = outside := by
  refine if_neg fun hc => h ?_
  rcases hc with rfl | rfl <;> decide

theorem step_inside {quote c : Char} (hslash : c ≠ '\\') (hquote : c ≠ quote) : (inside quote).step c = inside quote := by
  rw [step, if_neg hslash, if_neg hquote]

/-- Blanks, line feeds and tabs are all the same to literals. -/
theorem Proper.step_blank {s : Quoting} (h : s.Proper) {c c' : Char} (hc : c ∈ [' ', '\n', '\t'])
    (hc' : c' ∈ [' ', '\n', '\t']) :
    s.step c = s.step c' := by
  have hmark : ∀ a ∈ [' ', '\n', '\t'], a ∉ literalMarks := by simp [literalMarks]
  cases s with
  | outside => rw [step_outside (hmark c hc), step_outside (hmark c' hc')]
  | inside quote =>
    have hinside {a : Char} (ha : a ∈ [' ', '\n', '\t']) : (inside quote).step a = inside quote := by
      refine step_inside (fun heq => hmark a ha (heq ▸ by decide)) fun heq => hmark a ha ?_
      rcases h with rfl | rfl <;> exact heq ▸ by decide
    rw [hinside hc, hinside hc']
  | escaped quote => rfl

end Quoting

open Quoting

/-! ## What is read -/

/-- The text ends outside a literal, and not with a backslash. -/
structure Balanced (w : List Char) : Prop where
  closed : outside.after w = outside
  unjoined : w.getLast? ≠ some '\\'

namespace Balanced

theorem nil : Balanced [] := ⟨rfl, nofun⟩

theorem append {w w' : List Char} (h : Balanced w) (h' : Balanced w') : Balanced (w ++ w') where
  closed := by rw [after_append, h.closed, h'.closed]
  unjoined := by
    rw [List.getLast?_append]
    cases hlast : w'.getLast? with
    | none => exact h.unjoined
    | some c => exact fun heq => h'.unjoined (hlast.trans heq)

theorem of_not_mem {w : List Char} (h : ∀ c ∈ w, c ∉ literalMarks) : Balanced w where
  closed := by
    induction w with
    | nil => rfl
    | cons c w ih =>
      rw [after_cons, step_outside (h c List.mem_cons_self)]
      exact ih fun c' hc' => h c' (List.mem_cons_of_mem c hc')
  unjoined := fun hlast => h _ (List.mem_of_getLast? hlast) (by decide)

end Balanced

theorem balanced_take {n : Nat} {c : Cursor} (h : ∀ x ∈ c.rest.take n, x ∉ literalMarks) :
    ∃ w, c.rest = w ++ (c.skip n).rest ∧ Balanced w :=
  ⟨_, (Cursor.take_append_rest_skip n c).symm, .of_not_mem h⟩

/-- The body of a literal ends where the quote can close it. -/
theorem after_literalBody {quote : Char} {text body : List Char}
    (h : literalBody quote text = some body) : ∃ tail, text = body ++ quote :: tail ∧
      (inside quote).after body = inside quote := by
  fun_induction literalBody quote text generalizing body with
  | case1 => cases h
  | case2 rest => cases h
  | case3 c rest hfeed ih =>
    obtain ⟨body, hbody, rfl⟩ := Option.map_eq_some_iff.mp h
    obtain ⟨tail, rfl, hafter⟩ := ih hbody
    exact ⟨tail, rfl, hafter⟩
  | case4 rest hnext =>
    obtain rfl := Option.some.inj h
    exact ⟨rest, rfl, rfl⟩
  | case5 rest hnext hne => cases h
  | case6 c rest hnext hne hslash ih =>
    obtain ⟨body, hbody, rfl⟩ := Option.map_eq_some_iff.mp h
    obtain ⟨tail, rfl, hafter⟩ := ih hbody
    exact ⟨tail, rfl, by rw [after_cons, step_inside hslash hne, hafter]⟩

theorem reads_adjacent_eq (text : List Char) : Reads (adjacent text) fun w _ => w = text := by
  intro c a c' hc
  unfold adjacent at hc
  split at hc
  · next hprefix =>
    obtain ⟨tail, htail⟩ := List.isPrefixOf_iff_prefix.mp hprefix
    obtain ⟨-, rfl⟩ := Reply.done.inj hc
    exact ⟨text, by rw [Cursor.rest_skip, ← htail, List.drop_left], rfl⟩
  · cases hc

theorem balanced_blanks : Reads blanks fun w _ => Balanced w := by
  intro c a c' hc
  obtain ⟨-, rfl⟩ := Reply.done.inj hc
  refine balanced_take fun x hx => ?_
  rw [← List.prefix_iff_eq_take.mp (List.takeWhile_prefix _)] at hx
  have hblank := List.all_eq_true.mp List.all_takeWhile x hx
  rw [eq_of_beq hblank]
  decide

/-- A literal is read from its first quote to the one that closes it. -/
theorem balanced_quotedLiteral {quote : Char} (hquote : quote ∈ ['"', '\'']) :
    Reads (quotedLiteral quote) fun w _ => Balanced w := by
  refine balanced_blanks.bind fun gap _ hgap => (reads_adjacent_eq _).bind fun w _ hw => ?_
  intro c body c' hc
  simp only at hc
  split at hc
  · next body' hbody =>
    obtain ⟨rfl, rfl⟩ := Reply.done.inj hc
    obtain ⟨tail, htail, hafter⟩ := after_literalBody hbody
    refine ⟨body' ++ [quote], ?_, hgap.append ⟨?_, ?_⟩⟩
    · rw [Cursor.rest_skip, htail, List.append_cons, List.drop_left' (by simp)]
    · have hopen : outside.step quote = inside quote := if_pos (by simpa using hquote)
      have hclose : (inside quote).step quote = outside := by
        rcases List.mem_pair.mp hquote with rfl | rfl <;> rfl
      rw [hw, after_append, after_append, after_cons outside, hopen]
      show ((inside quote).after body').after [quote] = outside
      rw [hafter, after_cons, hclose]
      rfl
    · rw [hw, ← List.append_assoc, List.getLast?_concat]
      rcases List.mem_pair.mp hquote with rfl | rfl <;> decide
  · cases hc

theorem balanced_leftChain {operator : Parser Connective} {operand : Parser Term} (hr : Reads operator fun w _ => Balanced w)
    (ho : Reads operand fun w _ => Balanced w) (bound : Nat) (left : Term) :
    Reads (leftChain operator operand bound left) fun w _ => Balanced w := by
  induction bound generalizing left with
  | zero => exact .pure .nil
  | succ bound ih =>
    rw [leftChain_succ]
    refine (hr.optional (R := fun w _ => Balanced w) .nil fun _ _ h => h).bind fun w op? hw => ?_
    cases op? with
    | none => exact .pure (by rwa [List.append_nil])
    | some op =>
      refine ho.bind fun w' right hw' => (ih (.binary op left right)).mono fun w'' _ hw'' => ?_
      exact hw.append (hw'.append hw'')

theorem reads_keyword_eq (word : String) : Reads (keyword word) fun w _ => ∃ gap, Balanced gap ∧ w = gap ++ word.toList := by
  refine balanced_blanks.bind fun gap _ hgap => ?_
  intro c a c' hc
  simp only at hc
  split at hc
  · next hprefix =>
    obtain ⟨tail, htail⟩ := List.isPrefixOf_iff_prefix.mp (Bool.and_eq_true_iff.mp (Bool.and_eq_true_iff.mp hprefix).1).1
    obtain ⟨-, rfl⟩ := Reply.done.inj hc
    exact ⟨word.toList, by rw [Cursor.rest_skip, ← htail, List.drop_left], gap, hgap, rfl⟩
  · cases hc

/-- What a fork gives comes from one of its branches. -/
theorem done_of_fork {α β : Type} {p : Parser α} {q s : α → Parser β} {r e : Parser β} {c c' : Cursor} {b : β}
    (h : fork p q r s e c = .done b c') :
    (p >>= q) c = .done b c' ∨ r c = .done b c' ∨ (p >>= s) c = .done b c' ∨ e c = .done b c' := by
  unfold fork at h
  split at h
  · next a c₁ hp =>
    rw [bind_of_done hp, bind_of_done hp]
    split at h
    · next hq => exact .inl (hq.trans h)
    · cases h
    · split at h
      · next hr => exact .inr (.inl (hr.trans h))
      · cases h
      · exact .inr (.inr (.inl h))
  · exact .inr (.inr (.inr h))
  · cases h

theorem balanced_bind {α β : Type} {p : Parser α} {f : α → Parser β} (hp : Reads p fun w _ => Balanced w)
    (hf : ∀ a, Reads (f a) fun w _ => Balanced w) : Reads (p >>= f) fun w _ => Balanced w :=
  hp.bind fun _ a hw => (hf a).mono fun _ _ hw' => hw.append hw'

/-- Every phrase ends outside the literals and not with a backslash. -/
theorem hereditary_balanced : Hereditary fun p => Reads p fun w _ => Balanced w where
  pure _ := .pure .nil
  fail := .fail
  giveUp _ := .giveUp
  bind := balanced_bind
  orElse := .orElse
  optional hp := hp.optional .nil fun _ _ h => h
  notAhead _ := Reads.notAhead.mono fun _ _ hw => hw ▸ .nil
  many hp _ := hp.many .nil fun _ _ _ _ hw hw' => hw.append hw'
  leftChain hr _ ho _ left := fun c => balanced_leftChain hr ho c.rest.length left c
  fork hp hq hr hs he c b c' hc := by
    rcases done_of_fork hc with h | h | h | h
    · exact balanced_bind hp hq c b c' h
    · exact hr c b c' h
    · exact balanced_bind hp hs c b c' h
    · exact he c b c' h
  blanks := balanced_blanks
  adjacent htext := (reads_adjacent_eq _).mono fun _ _ hw => hw ▸ .of_not_mem (not_mem_of_plain htext)
  satisfying hr := (reads_satisfying _).mono fun w a ⟨hw, ha⟩ => by
    refine hw ▸ .of_not_mem fun x hx hmark => ?_
    rw [List.mem_singleton.mp hx] at hmark
    exact Bool.false_ne_true ((eq_false_of_spares hr a hmark).symm.trans ha)
  takeWhile hr := (reads_takeWhile _).mono fun w a ⟨hw, ha⟩ =>
    hw ▸ .of_not_mem fun x hx hmark => Bool.false_ne_true ((eq_false_of_spares hr x hmark).symm.trans (ha x hx))
  keyword hword := (reads_keyword_eq _).mono fun w _ ⟨gap, hgap, hw⟩ => 
    hw ▸ hgap.append (.of_not_mem (not_mem_of_plain ((by decide : ∀ w ∈ keywords, plain w.toList) _ hword)))
  quotedLiteral := balanced_quotedLiteral
  unsigned hp _ := balanced_bind (Reads.notAhead.mono fun _ _ hw => hw ▸ .nil) fun _ => hp

/-! ## Preparation -/

/-- Where the scanner for comments stands to the literals. -/
def Scan.quoting : Scan → Quoting
  | .code | .comment => outside
  | .literal quote => inside quote

/-- A character of a literal is the quote that closes it, or leaves the scanner where it is. -/
theorem step_inside_eq_quoting {quote c : Char} (h : c ≠ '\\') :
    (inside quote).step c = (if c = quote then Scan.code else .literal quote).quoting := by
  rw [step, if_neg h]
  split <;> rfl

/-- Where the scanner ends outside a literal, the next line starts anew. Where it does not, a line feed does not
close the literal. -/
def BreaksLine (scan : Scan) (text : List Char) : Prop :=
  scan.quoting.after (blankComments scan text) = outside ∧
      (∀ rest, blankComments scan (text ++ '\n' :: rest) = blankComments scan text ++ '\n' :: blankComments .code rest) ∨
    scan.quoting.after (blankComments scan text) ≠ outside ∧
      scan.quoting.after (blankComments scan (text ++ ['\n'])) ≠ outside

/-- A part that the scanner deals with whatever follows it. -/
theorem BreaksLine.append {scan t : Scan} {w v text : List Char}
    (hstep : ∀ tail, text <+: tail → blankComments scan (w ++ tail) = v ++ blankComments t tail)
    (hquoting : scan.quoting.after v = t.quoting) (h : BreaksLine t text) : BreaksLine scan (w ++ text) := by
  have hafter (tail : List Char) (ht : text <+: tail) :
      scan.quoting.after (blankComments scan (w ++ tail)) = t.quoting.after (blankComments t tail) := by
    rw [hstep tail ht, after_append, hquoting]
  unfold BreaksLine
  rw [hafter text (List.prefix_refl text), List.append_assoc, hafter _ (List.prefix_append text _),
    hstep text (List.prefix_refl text)]
  refine h.imp_left fun ⟨hends, hlines⟩ => ⟨hends, fun rest => ?_⟩
  rw [List.append_assoc, hstep _ (List.prefix_append text _), hlines, List.append_assoc]

theorem breaksLine_of_proper {scan : Scan} (h : scan.quoting.Proper) (text : List Char) : BreaksLine scan text := by
  fun_induction blankComments scan text with
  | case1 scan =>
    cases scan with
    | code => exact .inl ⟨rfl, fun rest => rfl⟩
    | comment => exact .inl ⟨rfl, fun rest => rfl⟩
    | literal quote =>
      refine .inr ⟨by simp [blankComments, Scan.quoting, after], ?_⟩
      have hne : '\n' ≠ quote := by rcases h with rfl | rfl <;> decide
      show (inside quote).step '\n' ≠ outside
      rw [step_inside (by decide) hne]
      exact Quoting.noConfusion
  | case2 rest ih =>
    exact .append (w := ['\n']) (v := ['\n'])
      (fun tail _ => by rw [List.singleton_append, blankComments, if_pos rfl]; rfl) rfl (ih trivial)
  | case3 x rest hx ih =>
    exact .append (w := [x]) (v := [' '])
      (fun tail _ => by rw [List.singleton_append, blankComments, if_neg hx]; rfl) rfl (ih trivial)
  | case4 quote x rest ih =>
    exact .append (w := ['\\', x]) (v := ['\\', x])
      (fun tail _ => by rw [List.cons_append, List.singleton_append, blankComments]; rfl) rfl (ih h)
  | case5 quote x rest hx ih =>
    by_cases hslash : x = '\\'
    · -- the backslash is the last character
      obtain rfl : rest = [] := by
        cases rest with
        | nil => rfl
        | cons y rest => exact absurd rfl (hx y rest hslash)
      subst hslash
      have hne : '\\' ≠ quote := by rcases h with rfl | rfl <;> decide
      exact .inr ⟨by simp [blankComments, Scan.quoting, after, step], by simp [blankComments, Scan.quoting, after, step]⟩
    · refine .append (w := [x]) (v := [x]) (fun tail _ => ?_) (step_inside_eq_quoting hslash) (ih ?_)
      · rw [List.singleton_append, blankComments]
        · rfl
        · exact fun _ _ heq => absurd heq hslash
      · split
        · trivial
        · exact h
  | case6 x rest hx ih =>
    exact .append (t := .literal x) (w := [x]) (v := [x])
      (fun tail _ => by rw [List.singleton_append, blankComments, if_pos hx]; rfl) (if_pos hx) (ih hx)
  | case7 rest hx ih =>
    exact .append (w := ['#']) (v := [' '])
      (fun tail _ => by rw [List.singleton_append, blankComments, if_neg hx, if_pos rfl]; rfl) rfl (ih trivial)
  | case8 x rest hx hhash ih =>
    exact .append (t := .code) (w := [x]) (v := [x])
      (fun tail _ => by rw [List.singleton_append, blankComments, if_neg hx, if_neg hhash]; rfl) (if_neg hx) (ih trivial)

theorem Quoting.Proper.after_joinLines {s : Quoting} (h : s.Proper) (text : List Char) :
    s.after (joinLines text) = s.after text := by
  fun_induction joinLines text generalizing s with
  | case1 => rfl
  | case2 rest ih =>
    have hpair : (s.step ' ').step ' ' = (s.step '\\').step '\n' := by
      cases s with
      | outside => rfl
      | inside quote =>
        have hne : ' ' ≠ quote := by rcases h with rfl | rfl <;> decide
        rw [step_inside (by decide) hne, step_inside (by decide) hne]
        rfl
      | escaped quote => exact (h.step '\\').step_blank (by decide) (by decide)
    rw [after_cons, after_cons, hpair]
    exact ih ((h.step _).step _)
  | case3 x rest _ ih => exact ih (h.step x)

theorem Quoting.Proper.after_replicate {s : Quoting} (h : s.Proper) (n : Nat) :
    s.after (List.replicate (n + 1) ' ') = s.step '\t' := by
  induction n generalizing s with
  | zero => exact h.step_blank (by decide) (by decide)
  | succ n ih =>
    rw [List.replicate_succ, after_cons, ih (h.step _)]
    cases s with
    | outside => rfl
    | inside quote =>
      have hne : ' ' ≠ quote := by rcases h with rfl | rfl <;> decide
      rw [step_inside (by decide) hne]
    | escaped quote =>
      have hne : '\t' ≠ quote := by rcases h with rfl | rfl <;> decide
      exact step_inside (by decide) hne

theorem Quoting.Proper.after_expandTabsFrom {s : Quoting} (h : s.Proper) (column : Nat) (text : List Char) :
    s.after (expandTabsFrom column text) = s.after text := by
  induction text generalizing s column with
  | nil => rfl
  | cons x rest ih =>
    by_cases hx : x = '\t'
    · obtain ⟨n, hn⟩ : ∃ n, tabWidth - column % tabWidth = n + 1 :=
        Nat.exists_eq_succ_of_ne_zero (Nat.sub_ne_zero_of_lt (Nat.mod_lt _ (by decide)))
      rw [expandTabsFrom, if_pos hx, hx, hn, after_append, h.after_replicate, after_cons]
      exact ih (h.step _) _
    · rw [expandTabsFrom, if_neg hx]
      exact ih (h.step x) _

theorem joinLines_append {above : List Char} (h : above.getLast? ≠ some '\\') (below : List Char) :
    joinLines (above ++ below) = joinLines above ++ joinLines below := by
  fun_induction joinLines above with
  | case1 => rfl
  | case2 rest ih =>
    rw [List.cons_append, List.cons_append, joinLines, ih fun hlast => h (by simp [List.getLast?_cons, hlast])]
    rfl
  | case3 x rest hx ih =>
    rw [List.cons_append, joinLines, ih fun hlast => h (by simp [List.getLast?_cons, hlast])]
    · rfl
    · rintro tail rfl htail
      cases rest with
      | nil => exact h rfl
      | cons y rest => exact hx rest rfl (congrArg (· :: rest) (List.cons.inj htail).1)

theorem joinLines_cons_feed (text : List Char) : joinLines ('\n' :: text) = '\n' :: joinLines text := by
  rw [joinLines]
  exact fun _ h => absurd h (by decide)

theorem getLast?_joinLines {text : List Char} (h : text.getLast? = some '\\') : (joinLines text).getLast? = some '\\' := by
  fun_induction joinLines text with
  | case1 => cases h
  | case2 rest ih =>
    cases rest with
    | nil => exact absurd h (by decide)
    | cons y rest => rw [List.getLast?_cons, List.getLast?_cons, ih (by simpa [List.getLast?_cons] using h)]; rfl
  | case3 x rest hx ih =>
    cases rest with
    | nil => exact h
    | cons y rest => rw [List.getLast?_cons, ih (by simpa [List.getLast?_cons] using h)]; rfl

theorem getLast?_expandTabsFrom {text : List Char} (h : text.getLast? = some '\\') (column : Nat) :
    (expandTabsFrom column text).getLast? = some '\\' := by
  induction text generalizing column with
  | nil => cases h
  | cons x rest ih =>
    cases rest with
    | nil =>
      obtain rfl := Option.some.inj h
      rfl
    | cons y rest =>
      have hlast : (y :: rest).getLast? = some '\\' := by simpa [List.getLast?_cons] using h
      unfold expandTabsFrom
      simp only
      split
      · rw [List.getLast?_append, ih hlast]; rfl
      · rw [List.getLast?_cons, ih hlast]; rfl

/-- A line end of the source is one line feed, with the carriage return that may stand before it. -/
theorem withLineFeeds_append (source rest : List Char) : ∃ lines,
    withLineFeeds (source ++ '\n' :: rest) = lines ++ '\n' :: withLineFeeds rest ∧
      (withLineFeeds source = lines ∨ source.getLast? = some '\r' ∧ withLineFeeds source = lines ++ ['\n']) := by
  fun_induction withLineFeeds source with
  | case1 => exact ⟨[], rfl, .inl rfl⟩
  | case2 source ih =>
    obtain ⟨lines, hlines, hsource⟩ := ih
    refine ⟨'\n' :: lines, by rw [List.cons_append, List.cons_append, withLineFeeds, hlines]; rfl, ?_⟩
    rcases hsource with rfl | ⟨hlast, heq⟩
    · exact .inl rfl
    · exact .inr ⟨by simp [List.getLast?_cons, hlast], by rw [heq]; rfl⟩
  | case3 x source hx ih =>
    by_cases hend : x = '\r' ∧ source = []
    · obtain ⟨rfl, rfl⟩ := hend
      exact ⟨[], rfl, .inr ⟨rfl, rfl⟩⟩
    · obtain ⟨lines, hlines, hsource⟩ := ih
      refine ⟨(if x = '\r' then '\n' else x) :: lines, ?_, ?_⟩
      · rw [List.cons_append, withLineFeeds, hlines]
        · rfl
        · rintro tail rfl htail
          cases source with
          | nil => exact hend ⟨rfl, rfl⟩
          | cons y source => exact hx source rfl (congrArg (· :: source) (List.cons.inj htail).1)
      · rcases hsource with rfl | ⟨hlast, heq⟩
        · exact .inl rfl
        · exact .inr ⟨by simp [List.getLast?_cons, hlast], by rw [heq]; rfl⟩

/-- The last line of the source ends in a backslash and a carriage return, outside of any comment: a line feed behind
it belongs to that line end, and the backslash joins the next line to it. -/
def JoinsNext (source : List Char) : Prop :=
  source.getLast? = some '\r' ∧ ['\\', '\n'] <:+ stripComments (withLineFeeds source)

/-- The text that is parsed of a source and further lines: that of the source, but for a line feed at its end, and that
of the lines. -/
theorem parsedText_append {source : List Char} (h : Balanced (parsedText source)) (hjoins : ¬ JoinsNext source)
    (rest : List Char) :
    ∃ above below, (below = [] ∨ below = ['\n']) ∧ parsedText source = above ++ below ∧
      parsedText (source ++ '\n' :: rest) = above ++ '\n' :: parsedText rest := by
  obtain ⟨lines, hlines, hsource⟩ := withLineFeeds_append source rest
  have hproper : outside.Proper := trivial
  have hquoting (text : List Char) : outside.after (expandTabs (joinLines text)) = outside.after text := by
    rw [expandTabs, hproper.after_expandTabsFrom, hproper.after_joinLines]
  have hscan : Scan.quoting .code = outside := rfl
  have htext (text : List Char) : parsedText text = expandTabs (joinLines (blankComments .code (withLineFeeds text))) := rfl
  have hclosed := h.closed
  rw [htext, hquoting] at hclosed
  -- the lines end outside a literal
  obtain ⟨hends, hfeed⟩ := (breaksLine_of_proper (show Scan.code.quoting.Proper from trivial) lines).resolve_right
    fun hopen => by
    rcases hsource with heq | ⟨-, heq⟩
    · exact hopen.1 (heq ▸ hclosed)
    · exact hopen.2 (heq ▸ hclosed)
  -- and not with a backslash
  have hlast : (blankComments .code lines).getLast? ≠ some '\\' := by
    intro hslash
    rcases hsource with heq | ⟨hreturn, heq⟩
    · refine h.unjoined ?_
      rw [htext, heq]
      exact getLast?_expandTabsFrom (getLast?_joinLines hslash) 0
    · refine hjoins ⟨hreturn, ?_⟩
      obtain ⟨front, hfront⟩ := List.getLast?_eq_some_iff.mp hslash
      refine ⟨front, ?_⟩
      rw [stripComments, heq, hfeed, hfront]
      simp [blankComments]
  have hlong : parsedText (source ++ '\n' :: rest) = expandTabs (joinLines (blankComments .code lines)) ++ '\n' ::
    parsedText rest := by
    rw [htext, hlines, hfeed, joinLines_append hlast, joinLines_cons_feed]
    exact expandTabsFrom_append 0 _ _
  rcases hsource with heq | ⟨-, heq⟩
  · exact ⟨_, [], .inl rfl, by rw [htext, heq, List.append_nil], hlong⟩
  · refine ⟨_, ['\n'], .inr rfl, ?_, hlong⟩
    rw [htext, heq, hfeed, joinLines_append hlast, joinLines_cons_feed]
    exact expandTabsFrom_append 0 _ []

end MinRuby.Syntax
