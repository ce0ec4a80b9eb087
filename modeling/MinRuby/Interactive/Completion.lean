import MinRuby.Run.Machine
import MinRuby.Syntax.Token

/-!
# Completion

The words that complete what has been typed at a prompt: the reserved words, the builtins and the
commands, in this order.
-/

namespace MinRuby

/-- The words that can be completed. -/
def completable : List String :=
  Syntax.keywords ++ Builtin.all.map Builtin.name ++ [":parse", ":env", ":functions", ":help", "exit"]

/-- The words that start with the given text. -/
def completions (text : String) : List String := completable.filter (·.startsWith text)

theorem mem_completions {text word : String} :
    word ∈ completions text ↔ word ∈ completable ∧ word.startsWith text = true := by
  simp [completions]

end MinRuby
