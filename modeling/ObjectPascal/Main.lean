import ObjectPascal.Tool.Run

/-!
The command line. Its first argument names a tool, and the others are for that tool. All files that
a run can need are read before it begins.
-/

namespace ObjectPascal.Tool

/-- The content of a file, if it can be read. -/
def fileContent? (path : String) : IO (Option Text) := do
  try
    let bytes ← IO.FS.readBinFile path
    return some ⟨bytes.data.toList⟩
  catch _ => return none

/-- What is at a path, and for a folder also what is in it. -/
def found (path : Text) : IO (List (Text × Folder.Entry)) := do
  let place ← IO.FS.realPath path.toString
  if ← place.isDir then
    let mut files := []
    for e in ← place.readDir do
      if let some content ← fileContent? e.path.toString then
        files := (Text.ofString e.fileName, content) :: files
    let names := (files.map (·.1)).mergeSort Text.le
    return (path, .folder names) :: files.map fun (name, content) =>
      (Folder.inside path name, .file content)
  else
    match ← fileContent? path.toString with
    | some content => return [(path, .file content)]
    | none => return []

/-- The files that a command line names. -/
def filesOf (t : Tool) (args : List Text) : IO Folder := do
  match Options.read t args with
  | .error _ => return .ofFiles []
  | .ok o =>
    let mut known := []
    for path in o.config :: o.args do
      unless path.isEmpty do
        known := known ++ (← found path)
    return { entry? := fun path => known.lookup path }

/-- Runs the tool of a name and prints what it prints. -/
def runNamed (name : String) (args : List String) : IO UInt32 := do
  let args := args.map Text.ofString
  match ofName? name with
  | none =>
    (← IO.getStderr).putStrLn "unknown tool"
    return 1
  | some t =>
    let outcome := t.run args (← filesOf t args)
    let out ← IO.getStdout
    out.write ⟨outcome.out.bytes.toArray⟩
    out.flush
    unless outcome.complaint.isEmpty do
      (← IO.getStderr).putStrLn ("Error: " ++ outcome.complaint.toString)
    return outcome.exit.toUInt32

end ObjectPascal.Tool

/-- Runs the tool that the first argument names. -/
def main (args : List String) : IO UInt32 :=
  ObjectPascal.Tool.runNamed (args.headD "") (args.drop 1)
