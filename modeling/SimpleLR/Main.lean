import SimpleLR.CommandLine

open SimpleLR

/-- Reads a source. A file may be missing, or unreadable for another reason. -/
def readSource : Source → IO (Except ReadError Text)
  | .standardInput => do return .ok (← (← IO.getStdin).readToEnd).toList
  | .file name => do
    try return .ok (← IO.FS.readFile (String.ofList name)).toList
    catch error =>
      match error with
      | .noFileOrDirectory .. => return .error (.missing name)
      | error => return .error ⟨name, (toString error).toList⟩

/-- Runs the program on its arguments. -/
def main (words : List String) : IO UInt32 := do
  let invocation := Invocation.ofWords (words.map String.toList)
  let input ← match invocation.source? with
    | some source => readSource source
    | none => pure (.ok [])
  match invocation.exit input with
  | .ok exit =>
    (← IO.getStderr).putStr (String.ofList exit.stderr)
    (← IO.getStdout).putStr (String.ofList exit.stdout)
    return exit.code.toUInt32
  | .error _ =>
    (← IO.getStderr).putStrLn "error: the run was given up"
    return 101
