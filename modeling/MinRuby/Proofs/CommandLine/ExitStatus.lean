import MinRuby.CommandLine.Task
import MinRuby.Proofs.Run.WellFormed

/-!
# Exit statuses

A program that finishes gives the status zero. One that fails is reported on the error channel and gives the status
one, unless it comes to the bound on rounds, numerals or repetition counts: those alone have no report, and no other
limit ever ends a run, since the machine it starts on is proper.

* `ProgramSource.keeps_evaluate` — a run fails in regular ways only.
* `ProgramSource.tells_run` — what the result of a run says about it.
* `Task.code_tells` — the same for code given on the command line.
-/

namespace MinRuby

/-- The text that reports a failure. Only a limit other than the depth has none. -/
def Failure.report? (name : String) : Failure → Option String
  | .parse e => some e.report
  | .runtime e => some (runtimeReport name e)
  | .limit .depth => some s!"Error: stack level too deep in '{name}'\n"
  | .limit _ => none

/-- A regular failure without a report is one of three limits. -/
theorem Failure.IsRegular.unreported {e : Failure} (h : e.IsRegular) {name : String} (hreport : e.report? name = none) :
    ∃ l ∈ [Limit.rounds, .numeral, .count], e = .limit l := by
  cases e with
  | runtime e => cases hreport
  | parse e => cases hreport
  | limit l =>
    cases l with
    | rounds => exact ⟨.rounds, by decide, rfl⟩
    | numeral => exact ⟨.numeral, by decide, rfl⟩
    | count => exact ⟨.count, by decide, rfl⟩
    | depth => cases hreport
    | compoundKey => exact h.elim
    | scalarTree => exact h.elim
    | missingChild => exact h.elim

/-- The result of a run tells how evaluation has ended. The status is zero exactly if it has finished, and one exactly
if it has failed and the failure has a report, which then stands on the error channel behind all that has been written.
Otherwise all breaks off at the limit that evaluation has come to. -/
structure Result.Tells (r : Result) (name : String) (outcome : EStateM.Result Failure Machine Value) : Prop where
  finished : r.status = .ok 0 ↔ ∃ v m, outcome = .ok v m
  failed : r.status = .ok 1 ↔ ∃ e m text, outcome = .error e m ∧ e.report? name = some text ∧
    r.messages = [.out m.written, .err text]
  broken : ∀ l, r.status = .error l ↔ l ∈ [Limit.rounds, .numeral, .count] ∧ ∃ m, outcome = .error (.limit l) m
  binary : ∀ n, r.status = .ok n → n = 0 ∨ n = 1

namespace ProgramSource

variable {budget : Budget} {source : ProgramSource} {args : List String} {files : Files} {debug : Bool} {m : Machine}

/-! ## Results of runs -/

theorem run_of_ok {v : Value} (h : source.evaluate budget (source.machine args files debug) = .ok v m) :
    source.run budget args files debug = ⟨[.out m.written], .ok 0⟩ := by
  rw [run, h]

theorem run_of_report {e : Failure} {text : String}
    (h : source.evaluate budget (source.machine args files debug) = .error e m)
    (hreport : e.report? source.name = some text) :
    source.run budget args files debug = ⟨[.out m.written, .err text], .ok 1⟩ := by
  rw [run, h]
  cases e with
  | runtime e => cases hreport; rfl
  | parse e => cases hreport; rfl
  | limit l =>
    cases l with
    | depth => cases hreport; rfl
    | _ => cases hreport

theorem run_of_limit {l : Limit} (h : source.evaluate budget (source.machine args files debug) = .error (.limit l) m)
    (hl : l ≠ .depth) : source.run budget args files debug = ⟨[.out m.written], .error l⟩ := by
  rw [run, h]
  cases l with
  | depth => exact absurd rfl hl
  | _ => rfl

/-! ## Failures of runs -/

theorem proper_machine (source : ProgramSource) (args : List String) (files : Files) (debug : Bool) :
    (source.machine args files debug).Proper :=
  fun p hp => absurd hp (Array.not_mem_empty p)

theorem keeps_fetch (depth : Nat) : Keeps Machine.Proper Regular (source.fetch depth) := by
  cases source with
  | inline code => exact Keeps.pure code
  | script path =>
    refine (keeps_callBuiltin depth _ _).bind fun v => ?_
    cases v with
    | str text => exact Keeps.pure text
    | _ => exact Keeps.pure ""

/-- A run keeps the machine proper and fails in regular ways only. -/
theorem keeps_evaluate (budget : Budget) (source : ProgramSource) :
    Keeps Machine.Proper Regular (source.evaluate budget) :=
  (keeps_fetch budget.depth).bind fun text => (keeps_trace _).bind fun _ => keeps_runSource budget text source.name

/-- A run that fails without a report has come to the bound on rounds, numerals or repetition counts. -/
theorem limit_of_unreported {e : Failure} (h : source.evaluate budget (source.machine args files debug) = .error e m)
    (hreport : e.report? source.name = none) : ∃ l ∈ [Limit.rounds, .numeral, .count], e = .limit l := by
  have hkept := keeps_evaluate budget source _ (source.proper_machine args files debug)
  rw [h] at hkept
  exact hkept.2.unreported hreport

/-- The result of a run tells how it has ended. -/
theorem tells_run (budget : Budget) (source : ProgramSource) (args : List String) (files : Files) (debug : Bool) :
    (source.run budget args files debug).Tells source.name
      (source.evaluate budget (source.machine args files debug)) := by
  cases hrun : source.evaluate budget (source.machine args files debug) with
  | ok v m =>
    rw [run_of_ok hrun]
    exact ⟨by simp, by simp, by simp, by simp⟩
  | error e m =>
    cases hreport : e.report? source.name with
    | some text =>
      rw [run_of_report hrun hreport]
      refine ⟨by simp, iff_of_true rfl ⟨e, m, text, rfl, hreport, rfl⟩, fun l => iff_of_false nofun ?_, by simp⟩
      rintro ⟨hl, m', heq⟩
      obtain ⟨rfl, -⟩ := EStateM.Result.error.inj heq
      revert hreport hl
      cases l <;> simp [Failure.report?]
    | none =>
      obtain ⟨l, hl, rfl⟩ := limit_of_unreported hrun hreport
      have hne : l ≠ .depth := fun h => absurd (h ▸ hl) (by decide)
      rw [run_of_limit hrun hne]
      refine ⟨by simp, iff_of_false nofun ?_, fun l' => ⟨?_, ?_⟩, by simp⟩
      · rintro ⟨e, m', text, heq, htext, -⟩
        obtain ⟨rfl, -⟩ := EStateM.Result.error.inj heq
        exact absurd (hreport.symm.trans htext) nofun
      · rintro ⟨⟩
        exact ⟨hl, m, rfl⟩
      · rintro ⟨-, m', heq⟩
        rw [(Failure.limit.inj (EStateM.Result.error.inj heq).1)]

end ProgramSource

namespace Task

variable {budget : Budget} {files : Files} {args : List String} {o : Options}

theorem ofArguments_of_start (h : Arguments.parse args = .ok (.start o)) :
    ofArguments budget files args = ofOptions budget files o := by
  rw [ofArguments, h]

theorem ofOptions_of_program {source : ProgramSource} {rest : List String} (hbatch : o.interactive = false)
    (hrun : o.parse = false) (h : o.program? = some (source, rest)) :
    ofOptions budget files o = batch (source.run budget rest files o.debug) := by
  rw [ofOptions, hbatch, h]
  simp only [hrun, Bool.false_eq_true, if_false]

/-- Code that is given on the command line is run, and the result tells how the run has ended. -/
theorem code_tells (budget : Budget) (files : Files) {code : String} (hargs : Arguments.parse args = .ok (.start o)) (hcode : o.code = some code)
    (hbatch : o.interactive = false) (hrun : o.parse = false) :
    ∃ rest r, o.program? = some (.inline code, rest) ∧ ofArguments budget files args = batch r ∧
      r.Tells "-e" ((ProgramSource.inline code).evaluate budget
        ((ProgramSource.inline code).machine rest files o.debug)) := by
  obtain ⟨rest, hprogram⟩ : ∃ rest, o.program? = some (.inline code, rest) := by
    rw [Options.program?, hcode]
    cases o.script with
    | none => exact ⟨_, rfl⟩
    | some script => exact ⟨_, rfl⟩
  exact ⟨rest, _, hprogram, (ofArguments_of_start hargs).trans (ofOptions_of_program hbatch hrun hprogram),
    ProgramSource.tells_run budget (.inline code) rest files o.debug⟩

/-- A division by zero is reported, and what follows the code is left to the program. -/
theorem division_tells : ∃ r, ofArguments .standard {} ["-e", "1 / 0", "more"] = batch r ∧
    r.Tells "-e" ((ProgramSource.inline "1 / 0").evaluate .standard
      ((ProgramSource.inline "1 / 0").machine ["more"] {} false)) := by
  have hargs : Arguments.parse ["-e", "1 / 0", "more"] = .ok (.start { code := some "1 / 0", script := some "more" }) := by
    rfl
  obtain ⟨rest, r, hprogram, hbatch, htells⟩ := code_tells .standard {} hargs rfl rfl rfl
  cases hprogram
  exact ⟨r, hbatch, htells⟩

/-- An integer that is too long to be printed ends the run without a report and without an exit status. -/
theorem long_numeral_unreported :
    ofArguments .standard {} ["-e", "p(10 ** 5000)"] = batch ⟨[.out ""], .error .numeral⟩ := by
  have hargs : Arguments.parse ["-e", "p(10 ** 5000)"] = .ok (.start { code := some "p(10 ** 5000)" }) := by
    rfl
  have hrun : (match (ProgramSource.inline "p(10 ** 5000)").run .standard [] {} false with
      | ⟨messages, .error l⟩ => decide (messages = [.out ""] ∧ l = .numeral)
      | _ => false) = true := by decide +kernel
  rw [ofArguments_of_start hargs, ofOptions_of_program rfl rfl rfl]
  split at hrun
  · next messages l heq =>
    obtain ⟨rfl, rfl⟩ := of_decide_eq_true hrun
    exact congrArg batch heq
  · cases hrun

end Task

end MinRuby
