import MinRuby.Proofs.Interactive.Session
import MinRuby.Proofs.Run.Binding
import MinRuby.Proofs.Syntax.OpenNames

/-!
# The tree that is shown

The command `:parse` shows the tree of a program as a program of its own, while a run resolves its names in the frame of the
session. The two trees are the same, up to the numbers of temporaries, exactly if the program reads no variable of the
session before it assigns it.

* `Command.ofLine_parse` — the line of the command.
* `Dialogue.shown_iff_open` — when the tree that is shown is the one that would be run.
-/

namespace MinRuby

open Syntax (Node compile openNames parseProgram readProgram)

open MinRuby.Text (isBlank strip stripLeft) in
theorem strip_of_ends {text rest init : List Char} {x y : Char} (hfirst : text = x :: rest) (hx : isBlank x = false)
    (hlast : text = init ++ [y]) (hy : isBlank y = false) : strip text = text := by
  have hleft {text rest : List Char} {x : Char} (htext : text = x :: rest) (hx : isBlank x = false) : stripLeft text = text := by
    rw [stripLeft, htext, List.dropWhile_cons_of_neg (by simp [hx])]
  have hreverse : text.reverse = y :: init.reverse := by rw [hlast, List.reverse_append]; rfl
  rw [strip, hleft hfirst hx, hleft hreverse hy, List.reverse_reverse]

/-- A line with the command and code that does not end in a blank. -/
theorem Command.ofLine_parse {code : String} {c : Char} (hlast : code.toList.getLast? = some c)
    (hblank : Text.isBlank c = false) : Command.ofLine (":parse " ++ code) = .outline code := by
  obtain ⟨init, hinit⟩ := List.getLast?_eq_some_iff.mp hlast
  have hline : (":parse " ++ code).toList = ':' :: ("parse ".toList ++ code.toList) := by simp
  have hend : (":parse " ++ code).toList = (":parse ".toList ++ init) ++ [c] := by simp [hinit]
  have hstrip : String.ofList (Text.strip (":parse " ++ code).toList) = ":parse " ++ code := by
    rw [strip_of_ends hline (by decide) hend hblank, String.ofList_toList]
  have hne (t : String) (ht : t.toList.take 7 ≠ ":parse ".toList) : ":parse " ++ code ≠ t := by
    rintro rfl
    exact ht (by simp)
  have hcode : String.ofList ((":parse " ++ code).toList.drop 7) = code := by simp
  unfold Command.ofLine
  simp only [hstrip]
  rw [if_neg (hne _ (by decide)), if_neg (not_or.mpr ⟨hne _ (by decide), hne _ (by decide)⟩), if_neg (hne _ (by decide)),
    if_neg (hne _ (by decide)), if_neg (hne _ (by decide)), if_pos (by simp), hcode]

namespace Dialogue

/-- The reaction to a line that has a tree shown. -/
def showing (d : Dialogue) (tree : Node) (next : Nat) : Reaction :=
  match Syntax.outline 0 tree.toData with
  | .ok text =>
    ⟨[.out (if d.machine.debug then parsedNote tree Syntax.anonymous ++ "\n" ++ text else text)],
      .prompt { d with nextShown := next }⟩
  | .error l => ⟨[], .breakOff l⟩

variable {d : Dialogue} {line code : String}

theorem react_outline (hnone : d.pending = []) (hline : Command.ofLine line = .outline code) {tree : Node} {next : Nat}
    (hparse : parseProgram code Syntax.anonymous [] d.nextShown = .ok (tree, next)) (budget : Budget) :
    d.react budget (.line line) = d.showing tree next := by
  rw [react, hnone, List.isEmpty_nil, if_pos rfl, obey, hline]
  show d.showOutline code = _
  unfold showOutline programOutline showing
  rw [hparse]
  simp only [bind, Except.bind]
  cases Syntax.outline 0 tree.toData <;> rfl

/-- The tree that a command shows is the one that a run of the program in the session would evaluate, up to other names for
temporaries, exactly if none of the names that the program reads before it assigns them is bound in the session. -/
theorem shown_iff_open (hnone : d.pending = []) (hline : Command.ofLine line = .outline code) {ts : List Syntax.Term}
    (hread : readProgram code Syntax.anonymous = .ok (.block ts)) :
    ∃ shown next tree next' m,
      parseProgram code Syntax.anonymous [] d.nextShown = .ok (shown, next) ∧
      parseProgram code Syntax.anonymous d.machine.frame.keys (if d.machine.debug then 1 else d.machine.nextTemporary) =
        .ok (tree, next') ∧
      (∀ budget, d.react budget (.line line) = d.showing shown next) ∧
      SameNames d.machine m ∧
      (∀ budget, runSource budget code Syntax.anonymous d.machine = evaluateIn budget tree m) ∧
      (shown.SameUpToTemporaries tree ↔ ∀ x ∈ openNames ts, x ∉ d.machine.frame.keys) := by
  have hparse (known : List String) (n : Nat) : parseProgram code Syntax.anonymous known n =
      .ok (.stmts (compile ts known n).1, (compile ts known n).2.2) := Syntax.parseProgram_eq_ok_iff.mpr ⟨ts, hread, rfl, rfl⟩
  obtain ⟨m, hsame, hrun⟩ := runSource_of_parse (m := d.machine) (hparse d.machine.frame.keys _)
  exact ⟨_, _, _, _, m, hparse _ _, hparse _ _, react_outline hnone hline (hparse [] d.nextShown), hsame, hrun,
    Syntax.compile_sameUpToTemporaries_iff (Syntax.isIdentifier_of_readProgram hread) _ _ _⟩

/-- A program that reads a variable of the session, but assigns it before, is shown as it would be run. -/
theorem assigned_shown_as_run : let d : Dialogue := { machine := { frame := .ofList [("x", .int 1)] }, nextShown := 3 }
    ∃ shown next tree m, (∀ budget, d.react budget (.line ":parse x = y && 2; x") = d.showing shown next) ∧
      SameNames d.machine m ∧
      (∀ budget, runSource budget "x = y && 2; x" Syntax.anonymous d.machine = evaluateIn budget tree m) ∧
      shown.SameUpToTemporaries tree := by
  intro d
  have hopen : ∀ x ∈ openNames [.assignName "x" (.binary .both (.name "y") (.lit (.int 2))), .name "x"],
      x ∉ d.machine.frame.keys := by decide +kernel
  obtain ⟨shown, next, tree, _, m, -, -, hshown, hsame, hrun, hiff⟩ :=
    shown_iff_open (d := d) rfl (@Command.ofLine_parse "x = y && 2; x" 'x' rfl rfl) rfl
  exact ⟨shown, next, tree, m, hshown, hsame, hrun, hiff.mpr hopen⟩

/-- A variable that is bound in the session is shown as the call of a function. -/
theorem variable_shown_as_call : ∃ d m,
    (start false).after? .standard [.line "x = 1"] = some d ∧
    (d.react .standard (.line ":parse x")).messages = [.out "stmts\n  func_call 'x'\n"] ∧
    SameNames d.machine m ∧
    (∀ budget, runSource budget "x" Syntax.anonymous d.machine = evaluateIn budget (.stmts [.varRef "x"]) m) ∧
    Syntax.outline 0 (Node.stmts [.varRef "x"]).toData = .ok "stmts\n  var_ref 'x'\n" := by
  have htyped : (((start false).after? .standard [.line "x = 1"]).any fun d => d.machine.frame.keys == ["x"] &&
      (d.react .standard (.line ":parse x")).messages == [.out "stmts\n  func_call 'x'\n"]) = true := by decide +kernel
  obtain ⟨d, hafter, htyped⟩ := (Option.any_eq_true ..).mp htyped
  obtain ⟨hkeys, hshown⟩ := Bool.and_eq_true_iff.mp htyped
  have hparse : parseProgram "x" Syntax.anonymous d.machine.frame.keys (if d.machine.debug then 1 else d.machine.nextTemporary) =
      .ok (.stmts [.varRef "x"], if d.machine.debug then 1 else d.machine.nextTemporary) := by
    rw [eq_of_beq hkeys]
    exact Syntax.parseProgram_of_readProgram (t := .block [.name "x"]) rfl
  obtain ⟨m, hsame, hrun⟩ := runSource_of_parse hparse
  exact ⟨d, m, hafter, eq_of_beq hshown, hsame, hrun, rfl⟩

end Dialogue

end MinRuby
