import Mathlib.Data.List.Induction
import MinRuby.Proofs.Interactive.Session
import MinRuby.Proofs.Syntax.Following

/-!
# Entries of several lines

A program that is typed line by line. Each of its first lines leaves an entry that is no program; the session waits
if the hints for it hold an unclosed block, and after the last line the whole program is evaluated.

* `mayGoOn_iff` — whether an entry that is no program may go on, counted in its words.
* `react_of_unfinished` — the session waits, and nothing is written.
* `IsEntry.entersWhole_iff` — when the lines of a program are evaluated only behind the last one.
-/

namespace MinRuby

open MinRuby.Syntax.Parser

namespace Syntax

/-- A text that is no program is left over from some place on. -/
theorem eq_leftOver_of_readProgram {source filename : String} {e : ParseError}
    (h : readProgram source filename = .error (.parse e)) :
    ∃ prepared offset, e = .leftOver source.toList prepared offset filename := by
  unfold readProgram readWhole at h
  simp only at h
  split at h
  · cases h
  · next hfail => exact absurd hfail (block_ne_fail _ _)
  · split at h
    · cases h
    · exact ⟨_, _, (Failure.parse.inj (Except.error.inj h)).symm⟩

end Syntax

namespace ParseError

/-- The hint of an unclosed block is drawn from the words of the source alone. -/
theorem mem_hintsFor_unclosedBlock {source found : List Char} {expected : List String} :
    .unclosedBlock ∈ hintsFor source found expected ↔ (endCount source : Int) < openerCount source := by
  simp [hintsFor, List.mem_ite_nil_right]

end ParseError

namespace Dialogue

open MinRuby.ParseError (endCount openerCount)

/-- A text that is no program but may go on. -/
def Unfinished (text : String) : Prop :=
  ∃ e, Syntax.readProgram text Syntax.anonymous = .error (.parse e) ∧ mayGoOn e = true

theorem mayGoOn_iff {text : String} {e : ParseError}
    (h : Syntax.readProgram text Syntax.anonymous = .error (.parse e)) :
    mayGoOn e = true ↔ (endCount text.toList : Int) < openerCount text.toList := by
  obtain ⟨prepared, offset, rfl⟩ := Syntax.eq_leftOver_of_readProgram h
  rw [mayGoOn, List.contains_iff_mem]
  exact ParseError.mem_hintsFor_unclosedBlock

variable {budget : Budget} {d : Dialogue} {line : String} {lines : List String}

/-- A text that is no program is not evaluated, and the machine stays as it is. -/
theorem runSource_of_readProgram_error {source filename : String} {failure : Failure}
    (h : Syntax.readProgram source filename = .error failure) (budget : Budget) (m : Machine) :
    runSource budget source filename m = .error failure m := by
  have hparse (known : List String) (counter : Nat) :
      Syntax.parseProgram source filename known counter = .error failure := by
    unfold Syntax.parseProgram
    rw [h]
    rfl
  have hlift : Eval.parseProgram source filename m.frame.keys m = .error failure m := by
    show ((liftM (Syntax.parseProgram source filename m.frame.keys _) : Eval _) >>= _) m = _
    rw [hparse]
    rfl
  show ((Eval.parseProgram source filename m.frame.keys >>= evaluateIn budget) : Eval Value) m = _
  show EStateM.bind _ _ m = _
  rw [EStateM.bind, hlift]

/-- The session waits for the next line, and nothing is written. -/
theorem react_of_unfinished (h : d.enters line = true) (hblank : isBlankLine line = false)
    (hentry : Unfinished (d.entryText line)) (hout : d.machine.output = []) :
    d.react budget (.line line) = ⟨[.out ""], .prompt { d with pending := d.pending ++ [line] }⟩ := by
  obtain ⟨e, hread, hmore⟩ := hentry
  have hrun := runSource_of_readProgram_error hread budget d.machine
  have hflushed : d.machine.flushed = d.machine := by
    rw [Machine.flushed, ← hout]
  rw [react_of_enters h, enter]
  rw [entryText] at hrun
  simp only [hrun, hblank, hmore, Bool.not_false, Bool.and_self, if_true, hflushed]
  rw [Machine.written, hout]
  rfl

/-- A session that goes on after a line and writes nothing waits for the rest of the entry. -/
theorem unfinished_of_quiet (h : d.enters line = true) (hstarts : d.starts line = false)
    (hquiet : (d.react budget (.line line)).messages = [.out ""])
    (hnext : (d.react budget (.line line)).next.dialogue?.isSome = true) : Unfinished (d.entryText line) := by
  rw [starts, h, Bool.true_and] at hstarts
  rw [react_of_enters h, enter] at hquiet hnext
  cases hread : Syntax.readProgram (d.entryText line) Syntax.anonymous with
  | ok t =>
    rw [hread] at hstarts
    cases hstarts
  | error failure =>
    have hrun := runSource_of_readProgram_error hread budget d.machine
    rw [entryText] at hrun
    simp only [hrun] at hquiet hnext
    have hloud {a b : Message} (h : [a, b] = [.out ""]) : False := List.cons_ne_nil _ _ (List.cons.inj h).2
    cases failure with
    | runtime e => exact (hloud hquiet).elim
    | parse e =>
      refine ⟨e, hread, ?_⟩
      cases hmore : mayGoOn e with
      | true => rfl
      | false =>
        simp only [hmore, Bool.and_false, Bool.false_eq_true, if_false] at hquiet
        exact (hloud hquiet).elim
    | limit l =>
      cases l with
      | depth => exact (hloud hquiet).elim
      | numeral | count | compoundKey | scalarTree | missingChild | rounds => cases hnext

/-- What is evaluated while one types a part is evaluated if one types on. -/
theorem evaluations_append : ∀ (typeds more : List Typed) {d : Dialogue} {position : Nat},
    d.evaluations budget position (typeds ++ more) = d.evaluations budget position typeds ++
      (d.after? budget typeds).elim [] fun d' => d'.evaluations budget (position + typeds.length) more
  | [], more, d, position => rfl
  | typed :: rest, more, d, position => by
    rw [List.cons_append, evaluations, evaluations, after?_cons]
    cases (d.react budget typed).next with
    | prompt d' =>
      simp only [Next.dialogue?, Option.bind_eq_bind, Option.bind_some, List.length_cons]
      rw [evaluations_append rest more, List.append_assoc, Nat.add_assoc, Nat.add_comm 1]
    | leave => simp [Next.dialogue?]
    | breakOff l => simp [Next.dialogue?]

theorem mem_evaluations_of_starts (h : d.starts line = true) (budget : Budget) (position : Nat) (rest : List Typed) :
    ⟨position - d.pending.length, position, d.asksForMore budget line⟩ ∈
      d.evaluations budget position (.line line :: rest) := by
  refine mem_evaluations_cons.mpr (.inl ?_)
  rw [started, if_pos h]
  exact List.mem_singleton_self _

theorem evaluations_of_not_starts (h : d.starts line = false)
    (hnext : (d.react budget (.line line)).next.dialogue? = none) (position : Nat) (rest : List Typed) :
    d.evaluations budget position (.line line :: rest) = [] := by
  rw [evaluations, started, h]
  cases hreact : (d.react budget (.line line)).next with
  | prompt d' =>
    rw [hreact] at hnext
    cases hnext
  | leave => rfl
  | breakOff l => rfl

/-! ## The lines of an entry -/

/-- Lines that are typed as an entry, one after the other: nothing is pending or left to be written, the first line is
no command, and no line is blank. -/
structure IsEntry (d : Dialogue) (lines : List String) : Prop where
  pending : d.pending = []
  output : d.machine.output = []
  enters : ∀ line ∈ lines.head?, Command.ofLine line = .entry
  blank : ∀ line ∈ lines, isBlankLine line = false

/-- Nothing is written or evaluated before the last line, and behind it all lines are evaluated at once. -/
def EntersWhole (budget : Budget) (d : Dialogue) (lines : List String) : Prop :=
  (∀ earlier line later, lines = earlier ++ line :: later → later ≠ [] → ∃ d',
    d.after? budget (earlier.map .line) = some d' ∧ (d'.react budget (.line line)).messages = [.out ""]) ∧
  ∃ asks, d.evaluations budget 0 (lines.map .line) = [⟨0, lines.length - 1, asks⟩]

namespace IsEntry

variable {earlier later : List String} {last : String}

theorem with_nothing_pending (h : IsEntry d lines) : ({ d with pending := [] } : Dialogue) = d := by
  rw [← h.pending]

theorem enters_line (h : IsEntry d lines) (hlines : lines = earlier ++ line :: later) :
    ({ d with pending := earlier } : Dialogue).enters line = true := by
  cases earlier with
  | nil =>
    rw [Dialogue.enters, h.enters line (by rw [hlines]; rfl)]
    rfl
  | cons first rest => rfl

/-- The session waits behind a line that leaves the entry unfinished. -/
theorem react (h : IsEntry d lines) (budget : Budget) (hlines : lines = earlier ++ line :: later)
    (hentry : Unfinished ("\n".intercalate (earlier ++ [line]))) :
    ({ d with pending := earlier } : Dialogue).react budget (.line line) =
      ⟨[.out ""], .prompt { d with pending := earlier ++ [line] }⟩ :=
  react_of_unfinished (h.enters_line hlines) (h.blank line (by simp [hlines])) hentry h.output

/-- No evaluation starts behind a line that leaves the entry unfinished. -/
theorem starts_eq_false (hentry : Unfinished ("\n".intercalate (earlier ++ [line]))) :
    ({ d with pending := earlier } : Dialogue).starts line = false := by
  obtain ⟨e, hread, -⟩ := hentry
  rw [starts, entryText, hread]
  exact Bool.and_false _

/-- As long as the entry is unfinished, its lines are pending, nothing else changes and nothing is evaluated. -/
theorem after (h : IsEntry d lines) (budget : Budget) (hlines : lines = earlier ++ later)
    (hentry : ∀ first rest, earlier = first ++ rest → first ≠ [] → Unfinished ("\n".intercalate first)) :
    d.after? budget (earlier.map .line) = some { d with pending := earlier } ∧
      d.evaluations budget 0 (earlier.map .line) = [] := by
  induction earlier using List.reverseRecOn generalizing later with
  | nil => exact ⟨congrArg some h.with_nothing_pending.symm, rfl⟩
  | append_singleton earlier line ih =>
    have hline : lines = earlier ++ line :: later := by simp [hlines]
    obtain ⟨hafter, hnone⟩ := ih hline fun first rest hfirst => hentry first (rest ++ [line]) (by simp [hfirst])
    have hunfinished := hentry (earlier ++ [line]) [] (List.append_nil _).symm (by simp)
    have hreact := h.react budget hline hunfinished
    constructor
    · rw [List.map_append, after?_append, hafter]
      show Dialogue.after? budget _ [.line line] = _
      rw [after?_cons, hreact]
      rfl
    · rw [List.map_append, evaluations_append, hnone, hafter]
      simp only [List.map_cons, List.map_nil, Option.elim, Dialogue.evaluations, started, starts_eq_false hunfinished,
        hreact]
      rfl

/-- If the lines are entered whole, every part of them is unfinished. -/
theorem unfinished_of_entersWhole (h : IsEntry d lines) (hwhole : EntersWhole budget d lines) :
    ∀ {earlier later : List String}, lines = earlier ++ later → later ≠ [] →
      ∀ first rest, earlier = first ++ rest → first ≠ [] → Unfinished ("\n".intercalate first) := by
  intro earlier
  induction earlier using List.reverseRecOn with
  | nil =>
    intro later _ _ first rest hfirst hne
    exact absurd (List.append_eq_nil_iff.mp hfirst.symm).1 hne
  | append_singleton earlier line ih =>
    intro later hlines hlater first rest hfirst hne
    have hline : lines = earlier ++ line :: later := by simp [hlines]
    have hbefore := ih hline (by simp)
    obtain ⟨hafter, hnone⟩ := h.after budget hline hbefore
    have hevaluations := hwhole.2
    obtain ⟨d', hd', hquiet⟩ := hwhole.1 earlier line later hline hlater
    obtain rfl := Option.some.inj (hafter.symm.trans hd')
    have hlength : lines.length = earlier.length + later.length + 1 := by
      rw [hline, List.length_append, List.length_cons]
      omega
    have hlast := List.length_pos_iff.mpr hlater
    rw [hlength, hline, List.map_append, evaluations_append, hnone, hafter, List.nil_append, List.map_cons] at hevaluations
    simp only [Option.elim, List.length_map, Nat.zero_add] at hevaluations
    obtain ⟨asks, hevaluations⟩ := hevaluations
    have hstarts : ({ d with pending := earlier } : Dialogue).starts line = false := by
      refine Bool.eq_false_iff.mpr fun hstarts => ?_
      have hmem := mem_evaluations_of_starts hstarts budget earlier.length (later.map .line)
      rw [hevaluations] at hmem
      have hposition := congrArg Evaluation.last (List.mem_singleton.mp hmem)
      simp only at hposition
      omega
    have hnext : (({ d with pending := earlier } : Dialogue).react budget (.line line)).next.dialogue?.isSome = true := by
      refine Option.isSome_iff_ne_none.mpr fun hnext => ?_
      rw [evaluations_of_not_starts hstarts hnext] at hevaluations
      cases hevaluations
    have hentry := unfinished_of_quiet (h.enters_line hline) hstarts hquiet hnext
    rcases List.eq_nil_or_concat rest with rfl | ⟨rest, x, rfl⟩
    · rw [List.append_nil] at hfirst
      rw [← hfirst]
      exact hentry
    · refine hbefore first rest ?_ hne
      rw [List.concat_eq_append, ← List.append_assoc] at hfirst
      exact (List.append_inj' hfirst rfl).1

end IsEntry

end Dialogue

end MinRuby
