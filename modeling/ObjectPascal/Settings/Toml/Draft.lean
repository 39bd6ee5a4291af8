import ObjectPascal.Text.Basic

/-!
The values of a file of tables.
-/

namespace ObjectPascal.Toml

/-- A value. Of numbers and moments nothing is kept. The `tables` of one name are written one after
the other, and the last may still grow. -/
inductive Value where
  | text (value : Text)
  | flag (isOn : Bool)
  | other
  | list (items : List Value)
  | table (entries : List (Text × Value))
  | tables (items : List (List (Text × Value)))

/-- Named values in the order of the file. -/
abbrev Entries := List (Text × Value)

/-- A way from the outermost table to a value. -/
abbrev Path := List Text

/-- Whether a value is a list with its items in brackets. -/
def Value.isList : Value → Bool
  | .list _ => true
  | _ => false

namespace Entries

/-- Gives a key a value, which takes the place of the one that it had. -/
def set (es : Entries) (key : Text) (v : Value) : Entries :=
  if (es.lookup key).isSome then es.map fun (k, old) => (k, if k == key then v else old)
  else es ++ [(key, v)]

/-- Changes the table at a path. Of tables of one name the last is meant. -/
def alter (f : Entries → Option Entries) : Path → Entries → Option Entries
  | [], es => f es
  | k :: path, es => do
    match es.lookup k with
    | some (.table inner) => return es.set k (.table (← alter f path inner))
    | some (.tables items) =>
      return es.set k (.tables (items.dropLast ++ [← alter f path (← items.getLast?)]))
    | _ => none

/-- Gives a key a value in the table at a path. Tables on the way that are missing are made. -/
def setWithin (key : Text) (v : Value) : Path → Entries → Option Entries
  | [], es => some (es.set key v)
  | k :: path, es => do
    match es.lookup k with
    | none => return es.set k (.table (← setWithin key v path []))
    | some (.table inner) => return es.set k (.table (← setWithin key v path inner))
    | _ => none

end Entries
end ObjectPascal.Toml

/-!
A file of tables that is being read. A table may exist only because something was put into it; its
own heading may follow once. A list may be replaced by any later value of its key.
-/

namespace ObjectPascal.Toml

/-- What is read of a file: its values, the paths that exist only because something was put below
them, the paths whose last value was a list, and the table and key that a value is read for. -/
structure Draft where
  root : Entries := []
  implied : List Path := []
  lists : List Path := []
  context : Path := []
  key : Text := ∅

namespace Draft

/-- Marks a path as implied. -/
def imply (d : Draft) (path : Path) : Draft := { d with implied := path :: d.implied }

/-- A path is implied no longer. -/
def confirm (d : Draft) (path : Path) : Draft :=
  { d with implied := d.implied.filter (· != path) }

/-- What is at a path. The tables of one name count as their last. -/
def find? (path : Path) (es : Entries) : Option Value :=
  match path with
  | [] => some (.table es)
  | k :: path =>
    match es.lookup k with
    | some (.table inner) => if path.isEmpty then some (.table inner) else find? path inner
    | some (.tables items) =>
      if path.isEmpty then some (.tables items) else find? path (items.getLast?.getD [])
    | some v => if path.isEmpty then some v else none
    | none => none

/-- Gives a key of the context a value. A list is replaced, and what was implied stays as it is; any
other key must be new. -/
def setValue (d : Draft) (key : Text) (v : Value) : Option Draft := do
  let path := d.context ++ [key]
  let put (es : Entries) : Option Entries := some (es.set key v)
  match find? path d.root with
  | none => return { d with root := ← d.root.alter put d.context }
  | some _ =>
    let root ← d.root.alter some d.context
    if d.lists.contains path then return { d.confirm path with root := ← root.alter put d.context }
    else if d.implied.contains path then return d.confirm path
    else none

/-- Notes whether the last value of a key of the context was a list. An empty key stands for the
context itself. -/
def setType (d : Draft) (key : Text) (isList : Bool) : Draft :=
  let path := if key.isEmpty then d.context else d.context ++ [key]
  let path := if path.isEmpty then [∅] else path
  let others := d.lists.filter (· != path)
  { d with lists := if isList then path :: others else others }

/-- Makes sure that there is a table at each step of a path. Those that are made are implied. -/
def reach (d : Draft) (before : Path) : Path → Option Draft
  | [] => some d
  | k :: rest => do
    let path := before ++ [k]
    match find? path d.root with
    | none =>
      let put (es : Entries) : Option Entries := some (es.set k (.table []))
      let root ← d.root.alter put before
      { d.imply path with root }.reach path rest
    | some (.table _) | some (.tables _) => d.reach path rest
    | some _ => none

/-- Adds one more table to those of one name. -/
def addTable (key : Text) (es : Entries) : Option Entries :=
  match es.lookup key with
  | none => some (es.set key (.tables [[]]))
  | some (.tables items) => some (es.set key (.tables (items ++ [[]])))
  | some _ => none

/-- Goes to the table at a path, which is made, or to one more table of that name. -/
def enter (d : Draft) (path : Path) (isOneMore : Bool) : Option Draft := do
  let parents := path.dropLast
  let last ← path.getLast?
  let d ← d.reach [] parents
  let d ←
    if isOneMore then do pure { d with root := ← d.root.alter (addTable last) parents }
    else setValue { d with context := parents } last (.table [])
  return { d with context := path }

/-- Goes from the context to the table that has the last part of a key, and makes that part the
key. -/
def descend (d : Draft) : List Text → Option Draft
  | [] => none
  | [last] => some { d with key := last }
  | part :: rest => do
    let path := d.context ++ [part]
    ((← (d.imply path).enter path false)).descend rest

end Draft
end ObjectPascal.Toml
