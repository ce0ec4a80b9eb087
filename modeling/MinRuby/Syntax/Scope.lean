import MinRuby.Syntax.Node

/-!
# Names and calls

A name that is read before it is assigned in its scope calls the function of that name. `Node.resolve`
turns such reads into calls. The body of a definition is a scope of its own that starts from the
parameters; names become known in the order of evaluation, whether or not the assignment is reached
when the program runs.
-/

namespace MinRuby.Syntax

/-- Threads the names that are known so far. -/
abbrev Scoped := StateM (List String)

namespace Node

mutual

/-- The tree with each name that is not known made a call. -/
def resolve : Node → Scoped Node
  | varRef name => return if name ∈ (← get) then varRef name else funcCall name []
  | varAssign name value => do
    let value ← value.resolve
    modify (name :: ·)
    return varAssign name value
  | funcDef name params body => return funcDef name params (body.resolve.run params).1
  | funcCall name args => return funcCall name (← resolveAll args)
  | loopAfter test body => do
    -- the body precedes the test in the source
    let body ← body.resolve
    return loopAfter (← test.resolve) body
  | binary op left right => return binary op (← left.resolve) (← right.resolve)
  | stmts body => return stmts (← resolveAll body)
  | choice test yes no => return choice (← test.resolve) (← yes.resolve) (← no.resolve)
  | loop test body => return loop (← test.resolve) (← body.resolve)
  | aryNew items => return aryNew (← resolveAll items)
  | aryRef container position => return aryRef (← container.resolve) (← position.resolve)
  | aryAssign container position value =>
    return aryAssign (← container.resolve) (← position.resolve) (← value.resolve)
  | hashNew items => return hashNew (← resolveAll items)
  | lit value => return lit value
  | unknown tag => return unknown tag
  | scalar => return scalar
  | broken => return broken
termination_by structural n => n

/-- The trees of a sequence with each name that is not known made a call. -/
def resolveAll : List Node → Scoped (List Node)
  | [] => return []
  | n :: rest => return (← n.resolve) :: (← resolveAll rest)
termination_by structural l => l

end

end Node

end MinRuby.Syntax
