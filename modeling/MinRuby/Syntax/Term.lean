import MinRuby.Syntax.Node

/-!
# Terms

Source programs as they are written, before they are reduced to the core language. A term keeps what
the reduction spells out: `&&` and `||`, `case`, `unless`, modifiers behind a statement, compound
assignment, and `begin` blocks. An `elsif` is a choice in the else branch, and a missing else branch is an empty
block.
-/

namespace MinRuby.Syntax

/-- The scalars that a program can write down. -/
inductive Literal where
  | nil
  | bool (b : Bool)
  | int (n : Int)
  | float (x : Float)
  | str (s : String)

/-- The scalar as plain data. -/
def Literal.toData : Literal → Data
  | nil => .null
  | bool b => .bool b
  | int n => .int n
  | float x => .float x
  | str s => .str s

/-- The operators between two operands. -/
inductive Connective where
  /-- An operator of the core language. -/
  | core (op : BinaryOp)
  | notEqual
  | both
  | either
deriving DecidableEq, Repr

/-- The keywords that may follow a statement on its line. -/
inductive Modifier where
  | whenTrue | unlessTrue | whileTrue
deriving DecidableEq, Repr

mutual

/-- A piece of a source program. -/
inductive Term where
  | lit (value : Literal)
  | name (x : String)
  | call (function : String) (args : List Term)
  | array (items : List Term)
  /-- Keys and values in turn. -/
  | hash (items : List Term)
  | index (container position : Term)
  | negation (operand : Term)
  | minus (operand : Term)
  | binary (op : Connective) (left right : Term)
  | choice (test yes no : Term)
  | choiceUnless (test no yes : Term)
  | assignName (x : String) (value : Term)
  | assignIndex (container position value : Term)
  | updateName (x : String) (op : BinaryOp) (value : Term)
  | updateIndex (container position : Term) (op : BinaryOp) (value : Term)
  | loop (test body : Term)
  | caseOf (subject : Term) (clauses : Clauses)
  | definition (name : String) (params : List String) (body : Term)
  | beginEnd (body : Term)
  | block (statements : List Term)
  | modified (statement : Term) (modifier : Modifier) (test : Term)

/-- The `when` clauses of a `case`, then its else branch. -/
inductive Clauses where
  | otherwise (body : Term)
  | clause (values : List Term) (body : Term) (rest : Clauses)

end

namespace Term

/-- The empty block. -/
def nothing : Term := block []

instance : Inhabited Term := ⟨nothing⟩

/-- The assignment of a value to a term, if the term can be assigned to. -/
def assign? (target value : Term) : Option Term :=
  match target with
  | name x => some (assignName x value)
  | index container position => some (assignIndex container position value)
  | _ => none

/-- The update of a term by an operator and a value, if the term can be assigned to. -/
def update? (target : Term) (op : BinaryOp) (value : Term) : Option Term :=
  match target with
  | name x => some (updateName x op value)
  | index container position => some (updateIndex container position op value)
  | _ => none

/-- A conditional with the given further clauses and else branch. -/
def choices (test body : Term) (clauses : List (Term × Term)) (otherwise : Term) : Term :=
  choice test body (clauses.foldr (fun c rest => choice c.1 c.2 rest) otherwise)

end Term

/-- The clauses of a `case` with the given else branch. -/
def Clauses.ofList (clauses : List (List Term × Term)) (otherwise : Term) : Clauses :=
  clauses.foldr (fun c rest => .clause c.1 c.2 rest) (.otherwise otherwise)

end MinRuby.Syntax
