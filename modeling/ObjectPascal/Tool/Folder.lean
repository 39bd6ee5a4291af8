import ObjectPascal.Text.Basic

/-!
Files as the tools see them: what is found at a path.
-/

namespace ObjectPascal

/-- What is found at a path: a file with its content, or a folder with the names of the files in it
in the order of their bytes. -/
inductive Folder.Entry where
  | file (content : Text)
  | folder (files : List Text)

/-- The files around a run. -/
structure Folder where
  entry? : Text → Option Folder.Entry

namespace Folder

/-- Adds one step of a path to the steps before it, of which the last comes first. Two points take a
step back where there is one. -/
def addStep (rooted : Bool) (done : List Text) (step : Text) : List Text :=
  if step.isEmpty || step == "." then done
  else if step == ".." then
    match done with
    | [] => if rooted then [] else [step]
    | last :: before => if last == ".." then step :: done else before
  else step :: done

/-- The steps of a path, without those that lead nowhere. -/
def steps (path : Text) : List Text :=
  let parts := (path.bytes.splitOn 0x2F).map Text.mk
  (parts.foldl (addStep (path.startsWith "/")) []).reverse

/-- The shortest form of a path. -/
def clean (path : Text) : Text :=
  let steps := steps path
  if path.startsWith "/" then "/" ++ Text.join "/" steps
  else if steps.isEmpty then "."
  else Text.join "/" steps

/-- The path of a file in a folder. -/
def inside (folder name : Text) : Text := clean (folder ++ "/" ++ name)

/-- Where a path has led so far: to a place below the working folder, given by its steps, or to a
folder outside of it, of which nothing is known. -/
inductive Place where
  | below (steps : List Text)
  | outside
deriving DecidableEq

/-- Whether there is a folder at a place below the working folder: it is on the way to a file. -/
def isFolder (files : List (List Text × Text)) (here : List Text) : Bool :=
  here.isEmpty || files.any fun (name, _) => here.isPrefixOf name && here != name

/-- Takes one step of a path, which is possible from a folder only. An empty step and one point
stay, and two points lead one folder up. -/
def walk (files : List (List Text × Text)) (place : Place) (step : Text) : Option Place :=
  let stays := step.isEmpty || step == "."
  match place with
  | .outside => if stays || step == ".." then some .outside else none
  | .below here =>
    if !isFolder files here then none
    else if stays then some place
    else if step == ".." then some (if here.isEmpty then .outside else .below here.dropLast)
    else some (.below (here ++ [step]))

/-- What is found at a place. -/
def at? (files : List (List Text × Text)) : Place → Option Entry
  | .outside => some (.folder [])
  | .below here =>
    match files.lookup here with
    | some content => some (.file content)
    | none =>
      if isFolder files here then
        let names := files.filterMap fun (name, _) =>
          if name.length = here.length + 1 && here.isPrefixOf name then name.getLast? else none
        some (.folder (names.mergeSort Text.le))
      else none

/-- A working folder with files below it. Every step of a path must lead to something. -/
def ofFiles (files : List (Text × Text)) : Folder where
  entry? path :=
    if path.isEmpty then none
    else
      let known := files.map fun (name, content) => (steps name, content)
      let start : Place := if path.startsWith "/" then .outside else .below []
      let parts := (path.bytes.splitOn 0x2F).map Text.mk
      (parts.foldlM (walk known) start).bind (at? known)

/-- The content of a file. -/
def content? (f : Folder) (path : Text) : Option Text :=
  match f.entry? path with
  | some (.file content) => some content
  | _ => none

end Folder
end ObjectPascal
