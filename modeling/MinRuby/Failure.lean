import MinRuby.Limit
import MinRuby.ParseError.Basic
import MinRuby.RuntimeError

/-!
# Failures

Three kinds of failure end a run: an error of the program, source text that is no program, and a
bound of the interpreter.
-/

namespace MinRuby

/-- Why a run ended early. -/
inductive Failure where
  | runtime (error : RuntimeError)
  | parse (error : ParseError)
  | limit (limit : Limit)

/-- A step that can only hit a limit, as one that can fail in any way. -/
instance : MonadLift (Except Limit) (Except Failure) := ⟨Except.mapError .limit⟩

/-- A step that can only be the program's fault, as one that can fail in any way. -/
instance : MonadLift (Except RuntimeError) (Except Failure) := ⟨Except.mapError .runtime⟩

/-- A step without state, as one that keeps the state also when it fails. -/
instance {σ : Type} : MonadLift (Except Failure) (EStateM Failure σ) where
  monadLift
    | .ok a => pure a
    | .error e => throw e

/-- Fails through the program's fault. -/
def blame {α : Type} (e : RuntimeError) : Except Failure α := .error (.runtime e)

end MinRuby
