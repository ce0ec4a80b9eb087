import MinRuby.Data.Printer

/-!
# Trees

The trees that the evaluator walks. A `Node` is one construct of the core language; as plain data it is
a list of a tag and the children, and `Node.toData` and `Node.ofData` go between the two forms. Data of
any shape is some node: a tag outside the vocabulary gives `unknown`, and a construct without the
children it needs gives `broken`, so that both fail only where they are evaluated.
-/

namespace MinRuby.Syntax

/-- The operators of the core language. -/
inductive BinaryOp where
  | add | sub | mul | div | mod | pow | lt | le | eq | ge | gt
deriving DecidableEq, Repr

namespace BinaryOp

/-- The spelling of an operator, which is its tag too. -/
def symbol : BinaryOp → String
  | add => "+"
  | sub => "-"
  | mul => "*"
  | div => "/"
  | mod => "%"
  | pow => "**"
  | lt => "<"
  | le => "<="
  | eq => "=="
  | ge => ">="
  | gt => ">"

/-- All operators. -/
def all : List BinaryOp := [add, sub, mul, div, mod, pow, lt, le, eq, ge, gt]

/-- The operator with the given spelling. -/
def ofSymbol? (s : String) : Option BinaryOp := all.find? (·.symbol == s)

end BinaryOp

/-- A tree of the core language. -/
inductive Node where
  | lit (value : Data)
  | binary (op : BinaryOp) (left right : Node)
  /-- Statements in sequence; the value of the last one. -/
  | stmts (body : List Node)
  | varAssign (name : String) (value : Node)
  | varRef (name : String)
  | choice (test yes no : Node)
  /-- A loop that tests before its body. -/
  | loop (test body : Node)
  /-- A loop that runs its body once before the first test. -/
  | loopAfter (test body : Node)
  | funcDef (name : String) (params : List String) (body : Node)
  | funcCall (name : String) (args : List Node)
  | aryNew (items : List Node)
  | aryRef (container position : Node)
  | aryAssign (container position value : Node)
  /-- Keys and values in turn; a last one without partner does not count. -/
  | hashNew (items : List Node)
  /-- A tag outside the vocabulary. -/
  | unknown (tag : Data)
  /-- A scalar that stands where a node should. -/
  | scalar
  /-- No node, or one without a child it needs. -/
  | broken

namespace Node

instance : Inhabited Node := ⟨broken⟩

/-- The truth value `false`. -/
def falseLit : Node := lit (.bool false)

/-- The truth value `true`. -/
def trueLit : Node := lit (.bool true)

/-- The empty sequence of statements, whose value is nil. -/
def nothing : Node := stmts []

/-- The tag of a node, as data. -/
def tag : Node → Data
  | lit _ => .str "lit"
  | binary op _ _ => .str op.symbol
  | stmts _ => .str "stmts"
  | varAssign _ _ => .str "var_assign"
  | varRef _ => .str "var_ref"
  | choice _ _ _ => .str "if"
  | loop _ _ => .str "while"
  | loopAfter _ _ => .str "while2"
  | funcDef _ _ _ => .str "func_def"
  | funcCall _ _ => .str "func_call"
  | aryNew _ => .str "ary_new"
  | aryRef _ _ => .str "ary_ref"
  | aryAssign _ _ _ => .str "ary_assign"
  | hashNew _ => .str "hash_new"
  | unknown tag => tag
  | scalar => .null
  | broken => .null

/-- The tags of the core language. -/
def tags : List String :=
  ["lit", "+", "-", "*", "/", "%", "**", "<", "<=", "==", ">=", ">", "stmts", "var_assign", "var_ref",
    "if", "while", "while2", "func_def", "func_call", "ary_new", "ary_ref", "ary_assign", "hash_new"]

mutual

/-- The tree as plain data. -/
def toData : Node → Data
  | lit value => .list [.str "lit", value]
  | binary op left right => .list [.str op.symbol, left.toData, right.toData]
  | stmts body => .list (.str "stmts" :: toDataAll body)
  | varAssign name value => .list [.str "var_assign", .str name, value.toData]
  | varRef name => .list [.str "var_ref", .str name]
  | choice test yes no => .list [.str "if", test.toData, yes.toData, no.toData]
  | loop test body => .list [.str "while", test.toData, body.toData]
  | loopAfter test body => .list [.str "while2", test.toData, body.toData]
  | funcDef name params body =>
    .list [.str "func_def", .str name, .list (params.map .str), body.toData]
  | funcCall name args => .list (.str "func_call" :: .str name :: toDataAll args)
  | aryNew items => .list (.str "ary_new" :: toDataAll items)
  | aryRef container position => .list [.str "ary_ref", container.toData, position.toData]
  | aryAssign container position value =>
    .list [.str "ary_assign", container.toData, position.toData, value.toData]
  | hashNew items => .list (.str "hash_new" :: toDataAll items)
  | unknown tag => .list [tag]
  | scalar => .bool true
  | broken => .null
termination_by structural n => n

/-- The trees of a sequence as plain data. -/
def toDataAll : List Node → List Data
  | [] => []
  | n :: rest => n.toData :: toDataAll rest
termination_by structural l => l

end

/-- The number of statements of a program. -/
def statementCount : Node → Nat
  | stmts body => body.length
  | _ => 0

/-- The child at a position. -/
def child (children : List Node) (i : Nat) : Node := children[i]?.getD broken

/-- The parameter names that plain data lists. -/
def paramNames? : Data → Option (List String)
  | .list items => some (items.map Data.bareText)
  | .tuple items => some (items.map Data.bareText)
  | .str s => some (s.toList.map fun c => String.singleton c)
  | _ => none

/-- The node with the given tag and children; `nodes` are the trees of the children `raw`. Children
beyond those that a construct has are left out. -/
def ofTagged (tag : Data) (raw : List Data) (nodes : List Node) : Node :=
  let child := child nodes
  match tag with
  | .str "lit" =>
    match raw with
    | value :: _ => lit value
    | [] => broken
  | .str "stmts" => stmts nodes
  | .str "var_assign" =>
    match raw with
    | name :: _ => varAssign name.bareText (child 1)
    | [] => broken
  | .str "var_ref" =>
    match raw with
    | name :: _ => varRef name.bareText
    | [] => broken
  | .str "if" => choice (child 0) (child 1) (child 2)
  | .str "while" => loop (child 0) (child 1)
  | .str "while2" => loopAfter (child 0) (child 1)
  | .str "func_def" =>
    match raw with
    | name :: params :: _ :: _ =>
      match paramNames? params with
      | some params => funcDef name.bareText params (child 2)
      | none => broken
    | _ => broken
  | .str "func_call" =>
    match raw with
    | name :: _ => funcCall name.bareText (nodes.drop 1)
    | [] => broken
  | .str "ary_new" => aryNew nodes
  | .str "ary_ref" => aryRef (child 0) (child 1)
  | .str "ary_assign" => aryAssign (child 0) (child 1) (child 2)
  | .str "hash_new" => hashNew nodes
  | .str s =>
    match BinaryOp.ofSymbol? s with
    | some op => binary op (child 0) (child 1)
    | none => unknown tag
  | tag => unknown tag

/-- A text as a tree: its first character is the tag and the others are the children. -/
def ofChars : List Char → Node
  | [] => unknown .null
  | tag :: rest =>
    let item (c : Char) : Data := .str (String.singleton c)
    ofTagged (item tag) (rest.map item) (rest.map fun c => ofTagged (item c) [] [])

mutual

/-- The tree that plain data stands for. Data that counts as empty has no tag. -/
def ofData : Data → Node
  | .list items => ofItems items
  | .tuple items => ofItems items
  | .str s => ofChars s.toList
  | .null => unknown .null
  | .mapping [] => unknown .null
  | .mapping (_ :: _) => broken
  | d =>
    match d.number? with
    | some n => if n.equal (.int 0) then unknown .null else scalar
    | none => broken
termination_by structural d => d

/-- The tree that a tag and children stand for. -/
def ofItems : List Data → Node
  | [] => unknown .null
  | tag :: rest => ofTagged tag rest (ofDataAll rest)
termination_by structural l => l

/-- The trees that the members of a sequence stand for. -/
def ofDataAll : List Data → List Node
  | [] => []
  | d :: rest => ofData d :: ofDataAll rest
termination_by structural l => l

end

end Node

end MinRuby.Syntax
