import MinRuby.CommandLine.Task

/-!
# The program

Reads the files that the command line names, does what it asks for, and talks to the terminal.
-/

open MinRuby

/-- Writes messages to their channels. -/
def writeMessages (messages : List Message) : IO Unit := do
  for message in messages do
    match message with
    | .out text => IO.print text
    | .err text => IO.eprint text
  (← IO.getStdout).flush

/-- The given files as far as they are there. -/
def readFiles (paths : List String) : IO Files := do
  let mut files : Files := {}
  for path in paths do
    try
      let bytes ← IO.FS.readBinFile path
      let key := "/".intercalate (Files.pathNames path)
      files := { files with contents := files.contents.insert key (bytes.toList.map UInt8.toNat) }
    catch
      | .inappropriateType .. =>
        files := { files with folders := "/".intercalate (Files.pathNames path) :: files.folders }
      | _ => pure ()
  return files

/-- What is typed next; the end of a line is not part of it. -/
def readTyped : IO Typed := do
  let line ← (← IO.getStdin).getLine
  if line.isEmpty then return .endOfInput
  else return .line (if line.endsWith "\n" then String.ofList (line.toList.dropLast) else line)

/-- Says that a limit was hit. -/
def reportLimit : IO UInt32 := do
  IO.eprintln "Error: a limit of the interpreter was hit"
  return 1

/-- Prompts and reacts until the session ends. -/
partial def converse (d : Dialogue) : IO UInt32 := do
  writeMessages [.out d.prompt]
  let reaction := d.react .standard (← readTyped)
  writeMessages reaction.messages
  match reaction.next with
  | .prompt d => converse d
  | .leave => return 0
  | .breakOff _ => reportLimit

/-- Does what the command line asks for. -/
def main (args : List String) : IO UInt32 := do
  let files ← readFiles args
  match Task.ofArguments .standard files args with
  | .batch result =>
    writeMessages result.messages
    match result.status with
    | .ok status => return status.toUInt32
    | .error _ => reportLimit
  | .session debug =>
    writeMessages [.out (Dialogue.greeting debug)]
    converse (.start debug)
