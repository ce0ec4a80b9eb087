import MinRuby.Syntax.Term

/-!
# Reduction to the core language

`Term.desugar` spells out what the core language lacks. A negation is a conditional, a `case` a chain of
comparisons, and whatever has to be looked at twice is kept in a hidden temporary. The name of a temporary
holds a `%` and a number of its own, so no program can name it and no two constructs share one.
-/

namespace MinRuby.Syntax

/-- Numbers the hidden temporaries of a program, from the number in the state on. -/
abbrev Fresh := StateM Nat

/-- The next temporary for the given construct. -/
def freshName (construct : String) : Fresh String := do
  let n ← get
  set (n + 1)
  return "%" ++ construct ++ toString n

namespace Node

/-- The negation of a truth value. -/
def negate (n : Node) : Node := choice n falseLit trueLit

/-- The negative of a number; of a literal number at once. -/
def negative : Node → Node
  | lit (.int n) => lit (.int (-n))
  | lit (.float x) => lit (.float (-x))
  | n => binary .sub (lit (.int 0)) n

/-- Whether one of the values equals the temporary, tested from left to right. -/
def matchesAny (temporary : String) : List Node → Node
  | [] => falseLit
  | [value] => binary .eq (varRef temporary) value
  | value :: rest => choice (binary .eq (varRef temporary) value) trueLit (matchesAny temporary rest)

/-- The left operand if it is falsy, else the right one. -/
def bothOf (temporary : String) (left right : Node) : Node :=
  stmts [varAssign temporary left, choice (varRef temporary) right (varRef temporary)]

/-- The left operand if it is truthy, else the right one. -/
def eitherOf (temporary : String) (left right : Node) : Node :=
  stmts [varAssign temporary left, choice (varRef temporary) (varRef temporary) right]

end Node

/-- The statement under a modifier; `runsFirst` says that it is a `begin` block, which a loop
behind it runs before the first test. -/
def Modifier.apply (modifier : Modifier) (runsFirst : Bool) (statement test : Node) : Node :=
  match modifier with
  | .whenTrue => .choice test statement .nothing
  | .unlessTrue => .choice test .nothing statement
  | .whileTrue => if runsFirst then .loopAfter test statement else .loop test statement

/-- Whether the term is a `begin` block. -/
def Term.isBegin : Term → Bool
  | .beginEnd _ => true
  | _ => false

mutual

/-- The tree of a term in the core language. -/
def Term.desugar : Term → Fresh Node
  | .lit value => return .lit value.toData
  | .name x => return .varRef x
  | .call function args => return .funcCall function (← desugarAll args)
  | .array items => return .aryNew (← desugarAll items)
  | .hash items => return .hashNew (← desugarAll items)
  | .index container position => return .aryRef (← container.desugar) (← position.desugar)
  | .negation operand => return (← operand.desugar).negate
  | .minus operand => return (← operand.desugar).negative
  | .binary op left right => do
    let l ← left.desugar
    let r ← right.desugar
    match op with
    | .core op => return .binary op l r
    | .notEqual => return (Node.binary .eq l r).negate
    | .both => return .bothOf (← freshName "and") l r
    | .either => return .eitherOf (← freshName "or") l r
  | .choice test yes no => return .choice (← test.desugar) (← yes.desugar) (← no.desugar)
  | .choiceUnless test no yes => do
    let test ← test.desugar
    let no ← no.desugar
    return .choice test (← yes.desugar) no
  | .assignName x value => return .varAssign x (← value.desugar)
  | .assignIndex container position value =>
    return .aryAssign (← container.desugar) (← position.desugar) (← value.desugar)
  | .updateName x op value => return .varAssign x (.binary op (.varRef x) (← value.desugar))
  | .updateIndex container position op value => do
    let c ← container.desugar
    let p ← position.desugar
    return .aryAssign c p (.binary op (.aryRef c p) (← value.desugar))
  | .loop test body => return .loop (← test.desugar) (← body.desugar)
  | .caseOf subject clauses => do
    let subject ← subject.desugar
    let temporary ← freshName "case"
    return .stmts [.varAssign temporary subject, ← clauses.desugar temporary]
  | .definition name params body => return .funcDef name params (← body.desugar)
  | .beginEnd body => body.desugar
  | .block statements => return .stmts (← desugarAll statements)
  | .modified statement modifier test => do
    let s ← statement.desugar
    return modifier.apply statement.isBegin s (← test.desugar)
termination_by structural t => t

/-- The trees of a sequence of terms. -/
def desugarAll : List Term → Fresh (List Node)
  | [] => return []
  | t :: rest => return (← t.desugar) :: (← desugarAll rest)
termination_by structural l => l

/-- The chain of comparisons of a temporary with the values of each clause. -/
def Clauses.desugar (temporary : String) : Clauses → Fresh Node
  | .otherwise body => body.desugar
  | .clause values body rest => do
    let values ← desugarAll values
    let body ← body.desugar
    return .choice (.matchesAny temporary values) body (← rest.desugar temporary)
termination_by structural c => c

end

end MinRuby.Syntax
