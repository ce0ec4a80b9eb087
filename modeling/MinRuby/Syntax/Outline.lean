import MinRuby.Limit
import MinRuby.Syntax.Node

/-!
# Outlines

The outline of a tree has one line per node, in the order of the tree, each indented by its depth. A
line shows the tag, then the texts among the children; a literal shows its value, a definition its name
and parameters. Data that is no node has a line with its text.
-/

namespace MinRuby.Syntax

/-- A line of an outline. -/
structure OutlineLine where
  depth : Int
  text : String
deriving DecidableEq, Repr

/-- The indentation of one level of depth. -/
def indentation : List Char := [' ', ' ']

/-- The line as text. A line whose depth is not positive stands at the margin. -/
def OutlineLine.render (line : OutlineLine) : String :=
  String.ofList (List.replicate line.depth.toNat indentation).flatten ++ line.text ++ "\n"

/-- Whether data is a text. -/
def isText : Data → Bool
  | .str _ => true
  | _ => false

/-- The line for a tag and the children that stand beside it. -/
def headLine (depth : Int) (tag : String) (beside : List Data) : Except Limit OutlineLine := do
  return ⟨depth, " ".intercalate (tag :: (← beside.mapM Data.written))⟩

mutual

/-- The lines of a tree at a depth. -/
def outlineLines (depth : Int) : Data → Except Limit (List OutlineLine)
  | .list (.str tag :: children) =>
    if tag = "lit" then
      match children with
      | [] => .error .missingChild
      | value :: _ => return [← headLine depth tag [value]]
    else if tag = "func_def" then do
      return (← headLine depth tag (children.take 2)) :: (← linesAfter (depth + 1) 2 children)
    else if tag ∈ Node.tags then do
      return (← headLine depth tag (children.filter isText)) :: (← innerLines (depth + 1) children)
    else do return [⟨depth, ← (Data.list (.str tag :: children)).written⟩]
  | .list (.list _ :: _) | .list (.mapping _ :: _) => .error .compoundKey
  | d => do return [⟨depth, ← d.written⟩]

/-- The lines of the children that are no texts. -/
def innerLines (depth : Int) : List Data → Except Limit (List OutlineLine)
  | [] => return []
  | d :: rest => do
    let lines ← if isText d then pure [] else outlineLines depth d
    return lines ++ (← innerLines depth rest)

/-- The lines of the children behind the first few. -/
def linesAfter (depth : Int) : Nat → List Data → Except Limit (List OutlineLine)
  | _, [] => return []
  | skipped + 1, _ :: rest => linesAfter depth skipped rest
  | 0, d :: rest => do return (← outlineLines depth d) ++ (← linesAfter depth 0 rest)

end

/-- The outline of a tree at a depth. -/
def outline (depth : Int) (tree : Data) : Except Limit String := do
  return "".intercalate ((← outlineLines depth tree).map OutlineLine.render)

end MinRuby.Syntax
