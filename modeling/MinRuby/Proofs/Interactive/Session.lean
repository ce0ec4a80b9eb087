import MinRuby.Interactive.Dialogue

/-!
# What a session evaluates

A session is followed over all that is typed. The lines that are pending are the last ones typed, and a line that
completes an entry has the whole entry evaluated. Every line belongs to one evaluation at most, unless an evaluation
ends in an error after which its entry goes on: a parse error of a text that the entry itself hands to the parser.

* `pending_suffix` — the lines of an unfinished entry are the last ones typed.
* `text_of_evaluation` — what is evaluated are programs, made up of the typed lines at the positions of the evaluation.
* `evaluated_once` — an evaluation that does not ask for more lines shares none with a later one.
-/

namespace MinRuby

/-- The session that prompts next. -/
def Next.dialogue? : Next → Option Dialogue
  | .prompt d => some d
  | .leave | .breakOff _ => none

namespace Dialogue

/-- The session that prompts after all that has been typed, if it has not ended. -/
def after? (budget : Budget) (d : Dialogue) (typed : List Typed) : Option Dialogue :=
  typed.foldlM (fun d t => (d.react budget t).next.dialogue?) d

/-- Whether a line is a line of an entry, and no command. -/
def enters (d : Dialogue) (line : String) : Bool := !d.pending.isEmpty || Command.ofLine line == .entry

/-- The text of the entry that goes on with a line. -/
def entryText (d : Dialogue) (line : String) : String := "\n".intercalate (d.pending ++ [line])

/-- Whether the entry is a program with the line at its end, so that its evaluation is started. -/
def starts (d : Dialogue) (line : String) : Bool :=
  d.enters line && (Syntax.readProgram (d.entryText line) Syntax.anonymous).isOk

/-- Whether the entry ends with the line in an error after which it goes on with the next line. -/
def asksForMore (budget : Budget) (d : Dialogue) (line : String) : Bool :=
  match runSource budget (d.entryText line) Syntax.anonymous d.machine with
  | .error (.parse e) _ => !isBlankLine line && mayGoOn e
  | _ => false

/-- An evaluation: the positions of the first and the last line of the entry among all that is typed, and whether
it ends in an error after which the entry goes on. -/
structure Evaluation where
  first : Nat
  last : Nat
  asksForMore : Bool
deriving DecidableEq, Repr

/-- The positions of the lines that are evaluated. -/
def Evaluation.positions (e : Evaluation) : List Nat := List.range' e.first (e.last + 1 - e.first)

/-- The evaluation that a reaction starts, if it starts one. -/
def started (budget : Budget) (d : Dialogue) (position : Nat) : Typed → List Evaluation
  | .line text =>
    if d.starts text then [⟨position - d.pending.length, position, d.asksForMore budget text⟩] else []
  | .interrupt | .endOfInput => []

/-- The evaluations that are started while one types, from the given position on. -/
def evaluations (budget : Budget) (d : Dialogue) (position : Nat) : List Typed → List Evaluation
  | [] => []
  | typed :: rest =>
    d.started budget position typed ++
      match (d.react budget typed).next with
      | .prompt d => evaluations budget d (position + 1) rest
      | .leave | .breakOff _ => []

variable {budget : Budget} {d d' : Dialogue} {line : String} {typed : Typed} {position : Nat}

/-! ## One line -/

theorem react_of_enters (h : d.enters line = true) : d.react budget (.line line) = d.enter budget line := by
  rw [react]
  split
  · next hnone =>
    rw [enters, hnone, Bool.not_true, Bool.false_or] at h
    rw [obey, eq_of_beq h]
  · rfl

/-- What comes after a line of an entry. -/
theorem next_of_enter (budget : Budget) (d : Dialogue) (line : String) : (d.enter budget line).next =
    match runSource budget (d.entryText line) Syntax.anonymous d.machine with
    | .ok v m =>
      match v.inspect m.store budget.depth with
      | .ok _ => .prompt { d with machine := m.flushed, pending := [] }
      | .error l => .breakOff l
    | .error (.runtime _) m => .prompt { d with machine := m.flushed, pending := [] }
    | .error (.parse e) m =>
      let pending := if !isBlankLine line && mayGoOn e then d.pending ++ [line] else []
      .prompt { d with machine := m.flushed, pending }
    | .error (.limit l) m =>
      if l = .depth then .prompt { d with machine := m.flushed, pending := [] } else .breakOff l := by
  rw [enter, entryText]
  cases hrun : runSource budget ("\n".intercalate (d.pending ++ [line])) Syntax.anonymous d.machine with
  | ok v m =>
    simp only
    cases v.inspect m.store budget.depth <;> rfl
  | error failure m =>
    cases failure with
    | runtime e => rfl
    | parse e =>
      simp only
      split <;> rfl
    | limit l => cases l <;> rfl

/-- After a line of an entry the whole entry is pending, or nothing. -/
theorem pending_of_enter (h : (d.enter budget line).next = .prompt d') :
    d'.pending = if d.asksForMore budget line then d.pending ++ [line] else [] := by
  rw [next_of_enter] at h
  rw [asksForMore]
  cases hrun : runSource budget (d.entryText line) Syntax.anonymous d.machine with
  | ok v m =>
    simp only [hrun] at h
    split at h
    · obtain rfl := Next.prompt.inj h
      rfl
    · cases h
  | error failure m =>
    simp only [hrun] at h
    cases failure with
    | runtime e =>
      obtain rfl := Next.prompt.inj h
      rfl
    | parse e =>
      obtain rfl := Next.prompt.inj h
      rfl
    | limit l =>
      simp only at h
      split at h
      · obtain rfl := Next.prompt.inj h
        rfl
      · cases h

/-- A command leaves no entry pending. -/
theorem pending_of_command (h : d.enters line = false) (hnext : (d.react budget (.line line)).next = .prompt d') :
    d'.pending = [] := by
  obtain ⟨hnone, hentry⟩ : d.pending = [] ∧ Command.ofLine line ≠ .entry := by
    simpa [enters] using h
  have hlist {listing : Eval Unit} (hl : (d.list listing).next = .prompt d') : d'.pending = [] := by
    unfold list at hl
    split at hl
    · obtain rfl := Next.prompt.inj hl
      exact hnone
    · cases hl
    · obtain rfl := Next.prompt.inj hl
      exact hnone
  rw [react, hnone, List.isEmpty_nil, if_pos rfl, obey] at hnext
  split at hnext
  · obtain rfl := Next.prompt.inj hnext
    exact hnone
  · cases hnext
  · obtain rfl := Next.prompt.inj hnext
    exact hnone
  · exact hlist hnext
  · exact hlist hnext
  · unfold showOutline at hnext
    split at hnext
    · obtain rfl := Next.prompt.inj hnext
      exact hnone
    · obtain rfl := Next.prompt.inj hnext
      exact hnone
    · cases hnext
    · obtain rfl := Next.prompt.inj hnext
      exact hnone
  · next h => exact absurd h hentry

/-- What is pending after a reaction: nothing, or what was pending and the line. -/
theorem pending_of_react (h : (d.react budget typed).next = .prompt d') :
    d'.pending = [] ∨ ∃ line, typed = .line line ∧ d.enters line = true ∧ d.asksForMore budget line = true ∧
      d'.pending = d.pending ++ [line] := by
  cases typed with
  | interrupt =>
    obtain rfl := Next.prompt.inj h
    exact .inl rfl
  | endOfInput => cases h
  | line line =>
    cases henters : d.enters line with
    | false => exact .inl (pending_of_command henters h)
    | true =>
      rw [react_of_enters henters] at h
      have hpending := pending_of_enter h
      split at hpending
      · next hmore => exact .inr ⟨line, rfl, henters, hmore, hpending⟩
      · exact .inl hpending

/-! ## All that is typed -/

variable {typeds rest : List Typed}

theorem after?_cons (typed : Typed) (rest : List Typed) :
    d.after? budget (typed :: rest) = (d.react budget typed).next.dialogue? >>= fun d => d.after? budget rest := rfl

theorem after?_append (typeds rest : List Typed) :
    d.after? budget (typeds ++ rest) = d.after? budget typeds >>= fun d => d.after? budget rest := by
  simp only [after?, List.foldlM_append]

theorem eq_prompt_of_dialogue? {next : Next} (h : next.dialogue? = some d) : next = .prompt d := by
  cases next with
  | prompt d' => rw [Option.some.inj h]
  | leave => cases h
  | breakOff l => cases h

/-- The lines of an unfinished entry are the last ones typed. -/
theorem pending_suffix : ∀ {typeds seen : List Typed} {d d' : Dialogue}, d.pending.map Typed.line <:+ seen →
    d.after? budget typeds = some d' → d'.pending.map Typed.line <:+ seen ++ typeds
  | [], seen, d, d', hseen, h => by
    obtain rfl : d = d' := Option.some.inj h
    rwa [List.append_nil]
  | typed :: rest, seen, d, d', hseen, h => by
    rw [after?_cons, Option.bind_eq_bind, Option.bind_eq_some_iff] at h
    obtain ⟨d₁, hreact, h⟩ := h
    have hstep : d₁.pending.map Typed.line <:+ seen ++ [typed] := by
      rcases pending_of_react (eq_prompt_of_dialogue? hreact) with hnone | ⟨line, rfl, -, -, hpending⟩
      · rw [hnone]
        exact List.nil_suffix
      · obtain ⟨earlier, rfl⟩ := hseen
        rw [hpending, List.map_append]
        exact ⟨earlier, by simp⟩
    rw [List.append_cons]
    exact pending_suffix hstep h

theorem mem_started {e : Evaluation} (h : e ∈ d.started budget position typed) : ∃ line, typed = .line line ∧
    d.starts line = true ∧ e = ⟨position - d.pending.length, position, d.asksForMore budget line⟩ := by
  cases typed with
  | line line =>
    rw [started] at h
    split at h
    · next hstarts => exact ⟨line, rfl, hstarts, List.mem_singleton.mp h⟩
    · exact absurd h List.not_mem_nil
  | interrupt => exact absurd h List.not_mem_nil
  | endOfInput => exact absurd h List.not_mem_nil

theorem mem_evaluations_cons {e : Evaluation} : e ∈ d.evaluations budget position (typed :: rest) ↔
    e ∈ d.started budget position typed ∨
      ∃ d', (d.react budget typed).next = .prompt d' ∧ e ∈ d'.evaluations budget (position + 1) rest := by
  rw [evaluations, List.mem_append]
  refine or_congr_right ?_
  split
  · next d' hnext => exact ⟨fun h => ⟨d', hnext, h⟩, fun ⟨d'', hnext', h⟩ => Next.prompt.inj (hnext.symm.trans hnext') ▸ h⟩
  · next hnext => exact ⟨fun h => absurd h List.not_mem_nil, fun ⟨d'', hnext', _⟩ => nomatch hnext.symm.trans hnext'⟩
  · next l hnext => exact ⟨fun h => absurd h List.not_mem_nil, fun ⟨d'', hnext', _⟩ => nomatch hnext.symm.trans hnext'⟩

/-- What is evaluated is a program, and its lines are the ones typed at the positions of the evaluation. -/
theorem text_of_evaluation : ∀ {typeds seen : List Typed} {d : Dialogue} {e : Evaluation},
    d.pending.map Typed.line <:+ seen → e ∈ d.evaluations budget seen.length typeds →
    ∃ lines : List String, ((seen ++ typeds).drop e.first).take (e.last + 1 - e.first) = lines.map Typed.line ∧
      (Syntax.readProgram ("\n".intercalate lines) Syntax.anonymous).isOk = true
  | [], seen, d, e, hseen, h => absurd h List.not_mem_nil
  | typed :: rest, seen, d, e, hseen, h => by
    rcases mem_evaluations_cons.mp h with h | ⟨d', hnext, h⟩
    · obtain ⟨line, rfl, hstarts, rfl⟩ := mem_started h
      obtain ⟨earlier, rfl⟩ := hseen
      refine ⟨d.pending ++ [line], ?_, (Bool.and_eq_true_iff.mp hstarts).2⟩
      have hfirst : (earlier ++ d.pending.map Typed.line).length - d.pending.length = earlier.length := by
        rw [List.length_append, List.length_map, Nat.add_sub_cancel]
      have hcount : (earlier ++ d.pending.map Typed.line).length + 1 - earlier.length =
          ((d.pending ++ [line]).map Typed.line).length := by
        simp only [List.length_append, List.length_map, List.length_singleton]
        omega
      have htyped : earlier ++ d.pending.map Typed.line ++ .line line :: rest =
          earlier ++ ((d.pending ++ [line]).map Typed.line ++ rest) := by simp
      simp only [hfirst, hcount, htyped]
      rw [List.drop_left, List.take_left]
    · have hafter : d.after? budget [typed] = some d' := by
        rw [after?_cons, hnext]
        rfl
      have hstep := pending_suffix hseen hafter
      rw [List.append_cons]
      exact text_of_evaluation hstep (by rwa [List.length_append])

/-- Where an evaluation begins, and that none that does not ask for more shares a line with a later one. -/
theorem apart_evaluations : ∀ {typeds : List Typed} {d : Dialogue} {position : Nat}, d.pending.length ≤ position →
    (∀ e ∈ d.evaluations budget position typeds, position - d.pending.length ≤ e.first) ∧
    (d.evaluations budget position typeds).Pairwise fun a b => a.asksForMore = false → a.last < b.first
  | [], d, position, _ => ⟨fun e h => absurd h List.not_mem_nil, List.Pairwise.nil⟩
  | typed :: rest, d, position, hposition => by
    -- nothing is pending after an evaluation that does not ask for more, and then all later ones begin behind it
    have hlater {d' : Dialogue} (hnext : (d.react budget typed).next = .prompt d') :
        d'.pending.length ≤ d.pending.length + 1 ∧ ∀ e ∈ d.started budget position typed, e.asksForMore = false →
          e.last < position + 1 - d'.pending.length := by
      rcases pending_of_react hnext with hnone | ⟨line, rfl, -, hmore, hpending⟩
      · rw [hnone]
        refine ⟨Nat.zero_le _, fun e he _ => ?_⟩
        obtain ⟨line, -, -, rfl⟩ := mem_started he
        exact Nat.lt_succ_self position
      · rw [hpending, List.length_append]
        refine ⟨Nat.le_refl _, fun e he hdone => ?_⟩
        obtain ⟨line', hline, -, rfl⟩ := mem_started he
        obtain rfl := Typed.line.inj hline
        exact absurd (hmore.symm.trans hdone) (by decide)
    have htail {d' : Dialogue} (hnext : (d.react budget typed).next = .prompt d') :
        (∀ e ∈ d'.evaluations budget (position + 1) rest, position + 1 - d'.pending.length ≤ e.first) ∧
        (d'.evaluations budget (position + 1) rest).Pairwise fun a b => a.asksForMore = false → a.last < b.first :=
      apart_evaluations (Nat.le_trans (hlater hnext).1 (Nat.succ_le_succ hposition))
    constructor
    · intro e he
      rcases mem_evaluations_cons.mp he with he | ⟨d', hnext, he⟩
      · obtain ⟨line, -, -, rfl⟩ := mem_started he
        exact Nat.le_refl _
      · have hfirst := (htail hnext).1 e he
        have hlength := (hlater hnext).1
        omega
    · have hone : (d.started budget position typed).Pairwise fun a b => a.asksForMore = false → a.last < b.first := by
        cases typed with
        | line line =>
          rw [started]
          split
          · exact List.pairwise_singleton _ _
          · exact List.Pairwise.nil
        | interrupt => exact List.Pairwise.nil
        | endOfInput => exact List.Pairwise.nil
      rw [evaluations]
      split
      · next d' hnext =>
        refine List.pairwise_append.mpr ⟨hone, (htail hnext).2, fun a ha b hb hdone => ?_⟩
        exact Nat.lt_of_lt_of_le ((hlater hnext).2 a ha hdone) ((htail hnext).1 b hb)
      · rwa [List.append_nil]
      · rwa [List.append_nil]

/-- An evaluation shares no line with a later one, whatever it ends in, unless it asks for more lines. -/
theorem evaluated_once (budget : Budget) (debug : Bool) (typeds : List Typed) :
    ((start debug).evaluations budget 0 typeds).Pairwise fun a b =>
      a.asksForMore = false → ∀ n ∈ a.positions, n ∉ b.positions := by
  refine (apart_evaluations (Nat.le_refl 0)).2.imp fun {a b} h hdone n ha hb => ?_
  have hlast := h hdone
  rw [Evaluation.positions, List.mem_range'_1] at ha hb
  omega

/-- An evaluation that asks for more lines: the program hands an unfinished text to the parser. -/
theorem line_evaluated_twice :
    (start false).evaluations .standard 0 [.line "p(1); minruby_parse(\"if x\")", .line "2"] =
      [⟨0, 0, true⟩, ⟨0, 1, true⟩] := by
  decide +kernel

end Dialogue

end MinRuby
