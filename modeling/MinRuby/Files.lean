import MinRuby.OrderedTable
import MinRuby.Text.Lines
import MinRuby.Text.Quoted
import MinRuby.Text.Utf8

/-!
# Files

The files that a run can read, by path, and the ways in which reading fails. A path may go through the
current folder by `.`; what is not a file is a folder only if it is listed as one. Files are UTF-8, and
every line end in them becomes a line feed.
-/

namespace MinRuby

/-- The files and folders that can be seen, by their paths without `.` parts. -/
structure Files where
  contents : OrderedTable String (List Nat) := .empty
  /-- The current folder has the empty path. -/
  folders : List String := [""]

/-- Why a file cannot be read. -/
inductive FileError where
  | missing
  | folder
  /-- A file stands in the path where a folder is needed. -/
  | insideFile
  | undecodable (error : Text.Utf8Error)
deriving DecidableEq, Repr

/-- The number and the name of the error of a system call. -/
def systemError (number : Nat) (name path : String) : String :=
  s!"[Errno {number}] {name}: {String.ofList (Text.quoted path.toList)}"

/-- The text of a reading error. -/
def FileError.message (path : String) : FileError → String
  | missing => systemError 2 "No such file or directory" path
  | folder => systemError 21 "Is a directory" path
  | insideFile => systemError 20 "Not a directory" path
  | undecodable error => error.message

namespace Files

/-- The names that a path goes through; the first one is empty if the path starts at the root. -/
def pathNames (path : String) : List String :=
  match path.splitOn "/" with
  | first :: rest =>
    if rest.isEmpty then [first].filter (· ≠ ".")
    else (if first = "" then [""] else [first].filter (· ≠ ".")) ++
      rest.filter fun name => name ≠ "" ∧ name ≠ "."
  | [] => []

/-- Whether the path insists on a folder. -/
def wantsFolder (path : String) : Bool := path.endsWith "/" || path.endsWith "/."

/-- The bytes of the file at a path. -/
def bytes (files : Files) (path : String) : Except FileError (List Nat) :=
  let names := pathNames path
  let key := "/".intercalate names
  if path = "" then .error .missing
  else
    match files.contents.find? key with
    | some content => if wantsFolder path then .error .insideFile else .ok content
    | none =>
      if key ∈ files.folders then .error .folder
      else if (List.range names.length).any fun n =>
          files.contents.contains ("/".intercalate (names.take n)) then .error .insideFile
      else .error .missing

/-- The text of the file at a path. -/
def read (files : Files) (path : String) : Except FileError String := do
  let content ← files.bytes path
  match Text.decode content with
  | .ok text => return String.ofList (Text.withLineFeeds text)
  | .error e => throw (.undecodable e)

end Files

end MinRuby
